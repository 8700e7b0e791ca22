import Mathlib.Data.List.Induction
import DelayInjection.Proofs.Pattern
import DelayInjection.Proofs.Persist.Distinct
import DelayInjection.Proofs.Plan.Grouping
import DelayInjection.Proofs.Table

-- What a store lists. It has one plan for every kind and key of the plans that it accepted:
-- first those that name one call site, sorted by their keys, then the patterns, in the order in
-- which they first came. A request that fails leaves what the plans before the refused one made.

namespace DelayInjection

namespace TrapPlan

-- The keys of the plans of one kind, in the order in which they first come.
def keysOf (exact : Bool) (plans : List TrapPlan) : List String :=
  distinct ((plans.filter (·.isExact == exact)).map (·.identityKey))

theorem keysOf_concat (exact : Bool) (plans : List TrapPlan) (plan : TrapPlan) :
    keysOf exact (plans ++ [plan]) =
      if plan.isExact = exact then
        if plan.identityKey ∈ keysOf exact plans then keysOf exact plans
        else keysOf exact plans ++ [plan.identityKey]
      else keysOf exact plans := by
  unfold keysOf
  rw [List.filter_append]
  by_cases h : plan.isExact = exact
  · rw [List.filter_cons_of_pos (by simp [h]), List.filter_nil, List.map_append,
      List.map_singleton, distinct_concat, if_pos h]
    simp only [mem_distinct]
  · rw [List.filter_cons_of_neg (by simp [h]), List.filter_nil, List.append_nil, if_neg h]

-- The plan that stands for a group has everything of the first one but the hit counts, which
-- are those of all, and the wish to repeat, which any of them may have.
theorem merged_eq_some {plans : List TrapPlan} {plan : TrapPlan} (h : merged plans = some plan) :
    ∃ first rest, plans = first :: rest ∧
      plan = { first with
        hitCounts := plans.flatMap (·.hitCounts)
        repeats := plans.any (·.repeats) } := by
  rw [merged_eq, Option.map_eq_some_iff] at h
  obtain ⟨first, hfirst, rfl⟩ := h
  obtain ⟨rest, hrest⟩ := List.head?_eq_some_iff.mp hfirst
  exact ⟨first, rest, hrest, rfl⟩

end TrapPlan

namespace PatternPlan

-- What is refused is the callee or the caller, and it is no pattern.
theorem compile_error {limit : RegexLimit} {handle : PlanHandle} {text : String}
    (h : compile limit handle = .error text) :
    Pattern.compile? limit text = none ∧
      (text = handle.plan.callee ∨ handle.plan.caller = some text) := by
  unfold compile at h
  split at h
  · rename_i hcallee
    obtain rfl := Except.error.inj h
    exact ⟨hcallee, .inl rfl⟩
  · split at h
    · cases h
    · rename_i hnamed
      split at h
      · rename_i hcaller
        obtain rfl := Except.error.inj h
        exact ⟨hcaller, .inr hnamed⟩
      · cases h

end PatternPlan

namespace PlanStore

section

variable {limit : RegexLimit} {added : List TrapPlan} {store next : PlanStore} {plan : TrapPlan}
  {handle : PlanHandle}

-- Handles are found under their keys, those of exact plans in the order of the keys.
theorem handles_eq (store : PlanStore) :
    store.handles = (store.exact.keys.mergeSort (· ≤ ·)).filterMap store.exact.get? ++
      store.patterns.map (·.handle) := by
  have hsorted : (store.exact.entries.mergeSort fun a b => a.1 ≤ b.1).map Prod.fst =
      store.exact.keys.mergeSort (· ≤ ·) :=
    List.map_mergeSort fun _ _ _ _ => rfl
  rw [handles, Table.map_snd_eq_filterMap fun entry hm => List.mem_mergeSort.mp hm, hsorted]

theorem mem_handles_iff : handle ∈ store.handles ↔
    (∃ key, store.exact.get? key = some handle) ∨
      ∃ pattern ∈ store.patterns, pattern.handle = handle := by
  have hexact : handle ∈ (store.exact.entries.mergeSort fun a b => a.1 ≤ b.1).map (·.2) ↔
      handle ∈ store.exact.values :=
    ((List.mergeSort_perm store.exact.entries fun a b => a.1 ≤ b.1).map Prod.snd).mem_iff
  rw [handles, List.mem_append, hexact, Table.mem_values_iff, List.mem_map]

theorem length_handles (store : PlanStore) : store.handles.length = store.size := by
  simp [handles, size, Table.size]

theorem mem_handles_of_storedAt {exact : Bool} {key : String}
    (h : store.storedAt exact key = some handle) : handle ∈ store.handles := by
  cases exact with
  | true => exact mem_handles_iff.mpr (.inl ⟨key, h⟩)
  | false =>
      obtain ⟨pattern, hfound, hhandle⟩ := Option.map_eq_some_iff.mp h
      exact mem_handles_iff.mpr (.inr ⟨pattern, mem_patterns_of_pattern? hfound, hhandle⟩)

-- The listed handles are those that are stored under a kind and a key.
theorem Indexed.mem_handles_iff_storedAt (h : Indexed store) : handle ∈ store.handles ↔
    ∃ exact key, store.storedAt exact key = some handle := by
  refine ⟨fun hm => ?_, fun ⟨exact, key, hstored⟩ => mem_handles_of_storedAt hstored⟩
  rcases mem_handles_iff.mp hm with ⟨key, hfound⟩ | ⟨pattern, hpattern, rfl⟩
  · exact ⟨true, key, hfound⟩
  · refine ⟨false, pattern.key, ?_⟩
    rw [storedAt, if_neg Bool.false_ne_true, h.pattern?_of_mem hpattern, Option.map_some]

-- After an addition nothing is listed but what was listed before and the version that it makes.
theorem Indexed.mem_handles_add (h : Indexed store) (hadd : store.add limit plan = (none, next))
    (hm : handle ∈ next.handles) :
    handle ∈ store.handles ∨ handle = store.versionOf (store.host? plan) plan := by
  obtain ⟨exact, key, hstored⟩ := (h.add hadd).mem_handles_iff_storedAt.mp hm
  rw [storedAt_add h hadd] at hstored
  split at hstored
  · exact .inr (Option.some.inj hstored).symm
  · exact .inl (mem_handles_of_storedAt hstored)

-- A listed plan is that of the group that has its kind and its key.
theorem Grouped.of_mem_handles (h : Grouped added store) (hm : handle ∈ store.handles) :
    TrapPlan.merged
      (added.filter (TrapPlan.inGroup handle.plan.isExact handle.plan.identityKey)) =
      some handle.plan := by
  obtain ⟨exact, key, hstored⟩ := h.indexed.mem_handles_iff_storedAt.mp hm
  have hgroup := h.stored exact key
  rw [hstored, Option.map_some] at hgroup
  obtain ⟨hexact, hkey⟩ := TrapPlan.inGroup_of_merged hgroup.symm
  rw [hexact, hkey, ← hgroup]

-- The counters of listed plans were started, and while nothing is injected they stand at the count
-- that the plan brought along.
def Counted (store : PlanStore) : Prop :=
  ∀ handle ∈ store.handles, handle.counter < store.nextCounter ∧
    store.injectionsOf handle = handle.plan.injections.toNat

-- The keys under which a store keeps the plans that were added, and the counts of their injections.
structure Keyed (added : List TrapPlan) (store : PlanStore) : Prop where
  exact : store.exact.keys = TrapPlan.keysOf true added
  patterns : store.patternKeys = TrapPlan.keysOf false added
  counted : store.Counted

theorem keyed_empty : Keyed [] {} where
  exact := rfl
  patterns := rfl
  counted handle hm := by
    rcases mem_handles_iff.mp hm with ⟨key, hfound⟩ | ⟨pattern, hm, -⟩
    · cases hfound
    · cases hm

theorem Counted.add (h : Counted store) (hindexed : Indexed store)
    (hadd : store.add limit plan = (none, next)) : Counted next := by
  intro handle hm
  rw [nextCounter_add hindexed hadd]
  unfold injectionsOf
  rw [injections_add hindexed hadd, startCounter, Table.get?_insert]
  rcases hindexed.mem_handles_add hadd hm with hm | rfl
  · obtain ⟨hstarted, hcount⟩ := h handle hm
    rw [if_neg (Nat.ne_of_gt hstarted)]
    exact ⟨Nat.lt_succ_of_lt hstarted, hcount⟩
  · refine ⟨Nat.lt_succ_self _, ?_⟩
    rw [versionOf, if_pos rfl, Option.getD_some, startCount]
    cases hhost : store.host? plan with
    | none => rfl
    | some host =>
        exact (h host (mem_handles_of_storedAt hhost)).2

theorem Keyed.add (h : Keyed added store) (hindexed : Indexed store)
    (hadd : store.add limit plan = (none, next)) : Keyed (added ++ [plan]) next := by
  have hkeys : next.exact.keys = TrapPlan.keysOf true (added ++ [plan]) ∧
      next.patternKeys = TrapPlan.keysOf false (added ++ [plan]) := by
    rw [TrapPlan.keysOf_concat, TrapPlan.keysOf_concat, ← h.exact, ← h.patterns]
    rcases add_ok hindexed hadd with ⟨hexact, rfl⟩ | ⟨hexact, pattern, hpattern, rfl⟩
    · simp [startCounter, patternKeys, Table.keys_insert, hexact]
    · have hput := (hindexed.startCounter (store.host? plan) plan).patternKeys_put pattern
      rw [hindexed.key_of_patternOf hpattern] at hput
      rw [hput, putPattern_eq, hexact, if_neg Bool.false_ne_true, if_pos rfl]
      exact ⟨rfl, rfl⟩
  exact ⟨hkeys.1, hkeys.2, h.counted.add hindexed hadd⟩

theorem Keyed.extend {plans : List TrapPlan} (h : Keyed added store)
    (hgrouped : Grouped added store) (hextend : store.extend limit plans = (none, next)) :
    Grouped (added ++ plans) next ∧ Keyed (added ++ plans) next :=
  extend_induction (fun added store => Grouped added store ∧ Keyed added store)
    (fun h hadd => ⟨h.1.add hadd, h.2.add h.1.indexed hadd⟩) ⟨hgrouped, h⟩ hextend

-- One plan is listed for every kind and key, in the order of the list.
theorem Keyed.order (hkeyed : Keyed added store) (hgrouped : Grouped added store) :
    store.handles.map (fun handle => (handle.plan.isExact, handle.plan.identityKey)) =
      ((TrapPlan.keysOf true added).mergeSort (· ≤ ·)).map (true, ·) ++
        (TrapPlan.keysOf false added).map (false, ·) := by
  rw [handles_eq, List.map_append, List.map_map, ← hkeyed.exact, ← hkeyed.patterns, patternKeys,
    List.map_map]
  congr 1
  · apply Table.map_filterMap_get? fun key hm => List.mem_mergeSort.mp hm
    intro key handle hfound
    obtain ⟨hexact, hkey⟩ := hgrouped.kind_of_exact hfound
    rw [hexact, hkey]
  · apply List.map_congr_left
    intro pattern hm
    exact Prod.ext (hgrouped.kind_of_pattern hm) rfl

end

-- The plans that a store accepts of some that are offered together, up to the first that it
-- refuses.
def accepted (limit : RegexLimit) (store : PlanStore) : List TrapPlan → List TrapPlan
  | [] => []
  | plan :: rest =>
      match store.add limit plan with
      | (some _, _) => []
      | (none, next) => plan :: next.accepted limit rest

section

variable {limit : RegexLimit} {store next : PlanStore} {plans : List TrapPlan} {text : String}

-- Whether or not a plan is refused, the accepted plans alone make the same store.
theorem extend_accepted (limit : RegexLimit) (store : PlanStore) (plans : List TrapPlan) :
    store.extend limit (store.accepted limit plans) = (none, (store.extend limit plans).2) := by
  induction plans generalizing store with
  | nil => rfl
  | cons plan rest ih =>
      cases hadd : store.add limit plan with
      | mk refused? next =>
          cases refused? with
          | some text => simp only [accepted, extend, hadd, add_refused hadd]
          | none => simp only [accepted, extend, hadd, ih next]

-- A failure stops at the plan that is refused, behind those that are accepted.
theorem extend_error (h : store.extend limit plans = (some text, next)) :
    ∃ plan rest, plans = store.accepted limit plans ++ plan :: rest ∧
      next.add limit plan = (some text, next) := by
  induction plans generalizing store with
  | nil => cases (Prod.mk.inj h).1
  | cons plan rest ih =>
      cases hadd : store.add limit plan with
      | mk refused? after =>
          cases refused? with
          | some refused =>
              simp only [extend, hadd, Prod.mk.injEq, Option.some.injEq] at h
              obtain ⟨rfl, rfl⟩ := h
              obtain rfl := add_refused hadd
              exact ⟨plan, rest, by simp only [accepted, hadd, List.nil_append], hadd⟩
          | none =>
              simp only [extend, hadd] at h
              obtain ⟨refused, others, hsplit, hrefused⟩ := ih h
              refine ⟨refused, others, ?_, hrefused⟩
              simp only [accepted, hadd, List.cons_append, ← hsplit]

-- Only a pattern is refused, and for one of its names.
theorem add_error {plan : TrapPlan} (h : store.add limit plan = (some text, next)) :
    plan.isExact = false ∧ Pattern.compile? limit text = none ∧
      (text = plan.callee ∨ plan.caller = some text) := by
  unfold PlanStore.add at h
  split at h
  · cases (Prod.mk.inj h).1
  · rename_i hexact
    refine ⟨Bool.eq_false_iff.mpr hexact, ?_⟩
    unfold addPattern at h
    split at h
    · cases (Prod.mk.inj h).1
    · dsimp only at h
      split at h
      · rename_i refused hcompile
        obtain rfl := Option.some.inj (Prod.mk.inj h).1
        exact PatternPlan.compile_error hcompile
      · cases (Prod.mk.inj h).1

end

-- What a store is asked to take: one plan, or some of them together.
inductive Request where
  | add (plan : TrapPlan)
  | extend (plans : List TrapPlan)

namespace Request

def plans : Request → List TrapPlan
  | add plan => [plan]
  | extend plans => plans

-- The answer to a request, which is a refused pattern or nothing, and the store behind it.
def serve (limit : RegexLimit) (store : PlanStore) : Request → Option String × PlanStore
  | add plan => store.add limit plan
  | extend plans => store.extend limit plans

theorem serve_eq (limit : RegexLimit) (store : PlanStore) (request : Request) :
    request.serve limit store = store.extend limit request.plans := by
  cases request with
  | add plan =>
      cases hadd : store.add limit plan with
      | mk refused? next =>
          cases refused? <;> simp only [serve, plans, PlanStore.extend, hadd]
  | extend plans => rfl

end Request

-- The plans that were accepted so far and the store, after one request more.
def served (limit : RegexLimit) (state : List TrapPlan × PlanStore) (request : Request) :
    List TrapPlan × PlanStore :=
  (state.1 ++ state.2.accepted limit request.plans, (request.serve limit state.2).2)

def serveAll (limit : RegexLimit) (requests : List Request) : List TrapPlan × PlanStore :=
  requests.foldl (served limit) ([], {})

theorem serveAll_holds (limit : RegexLimit) (requests : List Request) :
    Grouped (serveAll limit requests).1 (serveAll limit requests).2 ∧
      Keyed (serveAll limit requests).1 (serveAll limit requests).2 := by
  induction requests using List.reverseRecOn with
  | nil => exact ⟨grouped_empty, keyed_empty⟩
  | append_singleton requests request ih =>
      obtain ⟨hgrouped, hkeyed⟩ := ih
      rw [serveAll, List.foldl_append, List.foldl_cons, List.foldl_nil, ← serveAll, served,
        Request.serve_eq]
      exact hkeyed.extend hgrouped
        (extend_accepted limit (serveAll limit requests).2 request.plans)

-- After any requests the store lists one plan for every kind and key of the accepted plans, with
-- the hit counts of all of them and everything else from the first, its count of injections too;
-- the names of a pattern are those that its matcher was made of, and the index leads from the key
-- of every pattern to its place. A plan that is refused leaves the store as it is, and a request
-- that fails leaves what the plans before the refused one made.
theorem plans_listed (limit : RegexLimit) (requests : List Request) :
    let accepted := (serveAll limit requests).1
    let store := (serveAll limit requests).2
    store.handles.map (fun handle => (handle.plan.isExact, handle.plan.identityKey)) =
        ((TrapPlan.keysOf true accepted).mergeSort (· ≤ ·)).map (true, ·) ++
          (TrapPlan.keysOf false accepted).map (false, ·) ∧
      (∀ handle ∈ store.handles,
        let group := accepted.filter
          (TrapPlan.inGroup handle.plan.isExact handle.plan.identityKey)
        ∃ first rest, group = first :: rest ∧
          handle.plan = { first with
            hitCounts := group.flatMap (·.hitCounts)
            repeats := group.any (·.repeats) } ∧
          store.injectionsOf handle = first.injections.toNat) ∧
      (∀ pattern ∈ store.patterns, pattern.Compiled) ∧
      (∀ key index, store.patternIndex.get? key = some index ↔
        ∃ pattern, store.patterns[index]? = some pattern ∧
          pattern.handle.plan.identityKey = key) ∧
      store.plans = store.handles.map (·.plan) ∧ store.size = store.plans.length ∧
      (∀ plan text next, (Request.add plan).serve limit store = (some text, next) →
        next = store) ∧
      ∀ plans text next, (Request.extend plans).serve limit store = (some text, next) →
        ∃ before plan rest, plans = before ++ plan :: rest ∧
          (Request.extend before).serve limit store = (none, next) ∧
          next.add limit plan = (some text, next) ∧ plan.isExact = false ∧
          Pattern.compile? limit text = none ∧
          (text = plan.callee ∨ plan.caller = some text) := by
  intro accepted store
  obtain ⟨hgrouped, hkeyed⟩ := serveAll_holds limit requests
  refine ⟨hkeyed.order hgrouped, fun handle hm => ?_, hgrouped.compiled, fun key index => ?_, rfl,
    ?_, fun plan text next hfails => add_refused hfails, ?_⟩
  · obtain ⟨first, rest, hgroup, hplan⟩ := TrapPlan.merged_eq_some (hgrouped.of_mem_handles hm)
    refine ⟨first, rest, hgroup, hplan, ?_⟩
    rw [(hkeyed.counted handle hm).2, hplan]
  · rw [hgrouped.indexed key index, patternKeys, List.getElem?_map, Option.map_eq_some_iff]
    rfl
  · rw [plans, List.length_map, length_handles]
  · intro plans text next hfails
    obtain ⟨plan, rest, hsplit, hrefused⟩ := extend_error hfails
    refine ⟨store.accepted limit plans, plan, rest, hsplit, ?_, hrefused, add_error hrefused⟩
    have hnext : (store.extend limit plans).2 = next := congrArg Prod.snd hfails
    rw [Request.serve, extend_accepted, hnext]

-- A store with one plan is asked to take another one with its key, a pattern of many stars and a
-- third plan.
namespace Sample

def single : TrapPlan :=
  { callee := "Add", caller := some "Main", offset := 1, hitCounts := [{ localHits := 3 }],
    injections := 2 }

def starred (n : Nat) : TrapPlan := { callee := Pattern.Sample.stars n }

def batch (n : Nat) : List TrapPlan := [single, starred n, { callee := "Get" }]

theorem add_starred {n : Nat} (hn : 9000 < n) {store : PlanStore}
    (h : store.patternIndex = .empty) :
    store.add Pattern.Sample.limit (starred n) = (some (starred n).callee, store) := by
  have hcompile : Pattern.compile? Pattern.Sample.limit (starred n).callee = none :=
    Pattern.Sample.compile?_stars hn
  have hexact : ¬ (starred n).isExact = true := by simp [TrapPlan.isExact, starred]
  rw [PlanStore.add, if_neg hexact, addPattern, h, Table.get?_empty]
  simp only [newHandle, PatternPlan.compile, hcompile]

theorem serve_batch {n : Nat} (hn : 9000 < n) {store : PlanStore}
    (h : store.patternIndex = .empty) :
    (Request.extend (batch n)).serve Pattern.Sample.limit store =
      (some (starred n).callee, store.addExact single.identityKey single) := by
  have hadd : store.add Pattern.Sample.limit single =
      (none, store.addExact single.identityKey single) := if_pos (by decide +kernel)
  have hpatterns : (store.addExact single.identityKey single).patternIndex = .empty := by
    rw [addExact_eq]
    exact h
  simp only [Request.serve, batch, PlanStore.extend, hadd, add_starred hn hpatterns]

end Sample

theorem plans_listed_of_refused :
    let limit := Pattern.Sample.limit
    let store := (serveAll limit [.add Sample.single]).2
    store.handles.map (fun handle => (handle.plan.isExact, handle.plan.identityKey)) =
        [(true, "Add;Main;1")] ∧
      (∀ handle ∈ store.handles, store.injectionsOf handle = 2) ∧
      ∃ text next before plan rest,
        (Request.extend (Sample.batch 15000)).serve limit store = (some text, next) ∧
          Sample.batch 15000 = before ++ plan :: rest ∧
          (Request.extend before).serve limit store = (none, next) ∧
          next.add limit plan = (some text, next) := by
  intro limit store
  obtain ⟨horder, hlisted, -, -, -, -, -, hfails⟩ := plans_listed limit [.add Sample.single]
  have hserve : (Request.extend (Sample.batch 15000)).serve limit store = _ :=
    Sample.serve_batch (by decide) rfl
  obtain ⟨before, plan, rest, hsplit, hbefore, hrefused, -⟩ := hfails _ _ _ hserve
  refine ⟨?_, fun handle hm => ?_, _, _, before, plan, rest, hserve, hsplit, hbefore, hrefused⟩
  · rw [horder]
    decide +kernel
  · obtain ⟨first, rest, hgroup, -, hcount⟩ := hlisted handle hm
    have haccepted : (serveAll limit [.add Sample.single]).1 = [Sample.single] := by rfl
    have hfirst : first ∈ [Sample.single] :=
      haccepted ▸ (List.mem_filter.mp (hgroup ▸ List.mem_cons_self)).1
    rw [hcount, List.mem_singleton.mp hfirst]
    rfl

end PlanStore

end DelayInjection
