import DelayInjection.Proofs.Plan.Indexing
import DelayInjection.Proofs.Text.Cuts

-- A store holds its plans in groups. Plans that name one call site, and those that are patterns,
-- are grouped apart, each by their keys, and a group is its first plan with the hit counts of all.

namespace DelayInjection

namespace TrapPlan

-- The plan that stands for a group.
def merged : List TrapPlan → Option TrapPlan
  | [] => none
  | plan :: rest => some (rest.foldl merge plan)

theorem merged_concat (plans : List TrapPlan) (plan : TrapPlan) :
    merged (plans ++ [plan]) = some ((merged plans).elim plan (·.merge plan)) := by
  cases plans with
  | nil => rfl
  | cons first rest => simp [merged]

-- Of the later plans of a group only hit counts and the wish to repeat are taken over.
theorem foldl_merge (plan : TrapPlan) (rest : List TrapPlan) :
    rest.foldl merge plan =
      { plan with
        hitCounts := plan.hitCounts ++ rest.flatMap (·.hitCounts)
        repeats := plan.repeats || rest.any (·.repeats) } := by
  induction rest generalizing plan with
  | nil => simp
  | cons other others ih => simp [ih, merge, Bool.or_assoc]

-- A group is its first plan with the hit counts of all, and repeats if one of them does.
theorem merged_eq (plans : List TrapPlan) :
    merged plans = plans.head?.map fun first =>
      { first with
        hitCounts := plans.flatMap (·.hitCounts)
        repeats := plans.any (·.repeats) } := by
  cases plans with
  | nil => rfl
  | cons first rest => simp [merged, foldl_merge]

-- Whether a plan belongs to a group.
def inGroup (exact : Bool) (key : String) (plan : TrapPlan) : Bool :=
  plan.isExact == exact && plan.identityKey == key

theorem inGroup_iff {exact : Bool} {key : String} {plan : TrapPlan} :
    plan.inGroup exact key = true ↔ plan.isExact = exact ∧ plan.identityKey = key := by
  simp [inGroup]

theorem inGroup_self (plan : TrapPlan) :
    plan.inGroup plan.isExact plan.identityKey = true := inGroup_iff.mpr ⟨rfl, rfl⟩

theorem isExact_iff (plan : TrapPlan) :
    plan.isExact = true ↔ '*' ∉ plan.callee.toList ∧
      (∃ caller, plan.caller = some caller ∧ '*' ∉ caller.toList) ∧ 0 ≤ plan.offset.toInt := by
  simp [isExact, Pattern.isWildcard, Option.any_eq_true, and_assoc]

-- A group has one kind and one key.
theorem inGroup_of_merged {added : List TrapPlan} {exact : Bool} {key : String} {plan : TrapPlan}
    (h : merged (added.filter (inGroup exact key)) = some plan) :
    plan.isExact = exact ∧ plan.identityKey = key := by
  rw [merged_eq, Option.map_eq_some_iff] at h
  obtain ⟨first, hfirst, rfl⟩ := h
  exact inGroup_iff.mp (List.mem_filter.mp (List.mem_of_head? hfirst)).2

theorem toList_keyOf (callee caller : String) (offset : Int32) :
    (keyOf callee caller offset).toList =
      (callee.toList ++ ';' :: caller.toList) ++ ';' :: Text.integer offset.toInt := by
  simp [keyOf, Text.ofInt]

-- A key gives its offset, and the names up to the place where the callee ends.
theorem keyOf_eq_iff {callee caller callee' caller' : String} {offset offset' : Int32} :
    keyOf callee caller offset = keyOf callee' caller' offset' ↔
      callee.toList ++ ';' :: caller.toList = callee'.toList ++ ';' :: caller'.toList ∧
        offset = offset' := by
  have hnumber : ∀ n : Int, ';' ∉ Text.integer n := fun n hm =>
    Text.forall_mem_integer (P := (· ≠ ';')) (by decide) (by decide) ';' hm rfl
  rw [← String.toList_inj, toList_keyOf, toList_keyOf]
  constructor
  · intro he
    obtain ⟨hnames, hdigits⟩ := Text.append_cons_inj_of_not_mem (hnumber _) (hnumber _) he
    have hread := Text.integer?_integer offset.toInt
    rw [hdigits, Text.integer?_integer, Option.some.injEq] at hread
    exact ⟨hnames, Int32.toInt_inj.mp hread.symm⟩
  · rintro ⟨hnames, rfl⟩
    rw [hnames]

end TrapPlan

namespace PatternPlan

-- The names that a stored pattern asks for are those of its plan.
def Compiled (pattern : PatternPlan) : Prop :=
  pattern.callee.text = pattern.handle.plan.callee ∧
    pattern.caller.map (·.text) = pattern.handle.plan.caller

theorem compile_ok {limit : RegexLimit} {handle : PlanHandle} {pattern : PatternPlan}
    (h : compile limit handle = .ok pattern) : pattern.handle = handle ∧ pattern.Compiled := by
  unfold compile at h
  split at h
  · cases h
  · rename_i callee hcallee
    split at h
    · rename_i hcaller
      obtain rfl := Except.ok.inj h
      exact ⟨rfl, Pattern.text_of_compile? hcallee, hcaller.symm⟩
    · rename_i text hcaller
      split at h
      · cases h
      · rename_i caller hcompiled
        obtain rfl := Except.ok.inj h
        refine ⟨rfl, Pattern.text_of_compile? hcallee, ?_⟩
        rw [Option.map_some, Pattern.text_of_compile? hcompiled]
        exact hcaller.symm

end PatternPlan

namespace PlanStore

-- The stored plan that a plan is merged into, which has its kind and its key.
def host? (store : PlanStore) (plan : TrapPlan) : Option PlanHandle :=
  if plan.isExact then store.exact.get? plan.identityKey
  else (store.pattern? plan.identityKey).map (·.handle)

-- The stored plan of a kind with a key.
def storedAt (store : PlanStore) (exact : Bool) (key : String) : Option PlanHandle :=
  if exact then store.exact.get? key else (store.pattern? key).map (·.handle)

-- The version that an added plan makes of the stored plan with its key, if there is one.
def versionOf (store : PlanStore) (host? : Option PlanHandle) (plan : TrapPlan) : PlanHandle where
  plan := host?.elim plan (·.plan.merge plan)
  counter := store.nextCounter

-- The count that a version starts from: that of the version before it, or the plan's own.
def startCount (store : PlanStore) (host? : Option PlanHandle) (plan : TrapPlan) : Nat :=
  host?.elim plan.injections.toNat store.injectionsOf

def startCounter (store : PlanStore) (host? : Option PlanHandle) (plan : TrapPlan) : PlanStore :=
  { store with
    injections := store.injections.insert store.nextCounter (store.startCount host? plan)
    nextCounter := store.nextCounter + 1 }

-- A pattern keeps its matchers when a plan is merged into it.
def patternOf (limit : RegexLimit) (store : PlanStore) (found? : Option PatternPlan)
    (plan : TrapPlan) : Except String PatternPlan :=
  let version := store.versionOf (found?.map (·.handle)) plan
  match found? with
  | some found => .ok { found with handle := version }
  | none => PatternPlan.compile limit version

section

variable {limit : RegexLimit} {store next : PlanStore} {plan : TrapPlan}

theorem Indexed.startCounter (h : Indexed store) (host? : Option PlanHandle) (plan : TrapPlan) :
    Indexed (store.startCounter host? plan) := h

theorem addExact_eq (store : PlanStore) (key : String) (plan : TrapPlan) :
    store.addExact key plan =
      { store.startCounter (store.exact.get? key) plan with
        exact := store.exact.insert key (store.versionOf (store.exact.get? key) plan) } := by
  unfold addExact
  cases store.exact.get? key with
  | none => rfl
  | some host => rfl

theorem handle_of_patternOf {found? : Option PatternPlan} {pattern : PatternPlan}
    (h : store.patternOf limit found? plan = .ok pattern) :
    pattern.handle = store.versionOf (found?.map (·.handle)) plan := by
  cases found? with
  | none => exact (PatternPlan.compile_ok h).1
  | some found => exact (Except.ok.inj h) ▸ rfl

-- The version of a pattern has the key of the added plan.
theorem Indexed.key_of_patternOf (h : Indexed store) {pattern : PatternPlan}
    (hpattern : store.patternOf limit (store.pattern? plan.identityKey) plan = .ok pattern) :
    pattern.key = plan.identityKey := by
  rw [PatternPlan.key, handle_of_patternOf hpattern, versionOf]
  cases hfound : store.pattern? plan.identityKey with
  | none => rfl
  | some found => exact (h.pattern?_iff.mp hfound).2

-- With a sound index, an addition goes by the keyed view.
theorem Indexed.addPattern_eq (h : Indexed store) (limit : RegexLimit) (plan : TrapPlan) :
    store.addPattern limit plan.identityKey plan =
      match store.patternOf limit (store.pattern? plan.identityKey) plan with
      | .error text => (some text, store)
      | .ok pattern =>
          (none, (store.startCounter ((store.pattern? plan.identityKey).map (·.handle))
            plan).putPattern pattern) := by
  have hkey : ∀ pattern,
      store.patternOf limit (store.pattern? plan.identityKey) plan = .ok pattern →
        pattern.key = plan.identityKey := fun _ => h.key_of_patternOf
  cases hindex : store.patternIndex.get? plan.identityKey with
  | none =>
      rw [pattern?_of_get?_eq_none hindex] at hkey ⊢
      have hcompile : store.patternOf limit none plan =
          PatternPlan.compile limit (store.newHandle plan plan.injections.toNat).1 := rfl
      unfold addPattern
      rw [hindex]
      dsimp only
      rw [← hcompile]
      cases hpattern : store.patternOf limit none plan with
      | error text => rfl
      | ok pattern =>
          have hnew : (store.startCounter none plan).patternIndex.get? pattern.key = none := by
            rw [hkey pattern hpattern]
            exact hindex
          simp only [Option.map_none]
          rw [putPattern_of_none hnew, hkey pattern hpattern]
          rfl
  | some index =>
      obtain ⟨found, hat, -, hfound⟩ := h.pattern?_of_get? hindex
      rw [hfound] at hkey ⊢
      have hold : (store.startCounter (some found.handle) plan).patternIndex.get?
          ({ found with handle := store.versionOf (some found.handle) plan } : PatternPlan).key =
            some index := by
        rw [← hindex, ← hkey _ rfl]
        rfl
      simp only [patternOf, Option.map_some]
      rw [putPattern_of_some hold, addPattern, hindex]
      simp only [mergePattern, hat]
      rfl

-- What an addition does: it starts a counter and puts the new version in its place.
theorem add_ok (hindexed : Indexed store) (h : store.add limit plan = (none, next)) :
    (plan.isExact = true ∧ next =
        { store.startCounter (store.host? plan) plan with
          exact := store.exact.insert plan.identityKey
            (store.versionOf (store.host? plan) plan) }) ∨
      (plan.isExact = false ∧ ∃ pattern,
        store.patternOf limit (store.pattern? plan.identityKey) plan = .ok pattern ∧
        next = (store.startCounter (store.host? plan) plan).putPattern pattern) := by
  unfold PlanStore.add at h
  split at h
  · rename_i hexact
    obtain ⟨-, rfl⟩ := Prod.mk.inj h
    rw [addExact_eq, host?, if_pos hexact]
    exact .inl ⟨hexact, rfl⟩
  · rename_i hexact
    rw [hindexed.addPattern_eq] at h
    rw [host?, if_neg hexact]
    split at h
    · cases (Prod.mk.inj h).1
    · rename_i pattern hpattern
      exact .inr ⟨Bool.eq_false_iff.mpr hexact, pattern, hpattern, (Prod.mk.inj h).2.symm⟩

-- An addition that fails gives the store back as it was.
theorem add_refused {text : String} (h : store.add limit plan = (some text, next)) :
    next = store := by
  unfold PlanStore.add addPattern at h
  split at h
  · cases (Prod.mk.inj h).1
  · split at h
    · cases (Prod.mk.inj h).1
    · dsimp only at h
      split at h
      · exact (Prod.mk.inj h).2.symm
      · cases (Prod.mk.inj h).1

theorem host?_eq_storedAt (store : PlanStore) (plan : TrapPlan) :
    store.host? plan = store.storedAt plan.isExact plan.identityKey := rfl

-- The index stays sound whether the plan is exact, merged into a pattern, or a new pattern.
theorem Indexed.add (hindexed : Indexed store) (h : store.add limit plan = (none, next)) :
    Indexed next := by
  rcases add_ok hindexed h with ⟨-, rfl⟩ | ⟨-, pattern, -, rfl⟩
  · exact hindexed
  · exact (hindexed.startCounter (store.host? plan) plan).put pattern

-- The new version stands for its group, and no other group changes.
theorem storedAt_add (hindexed : Indexed store) (h : store.add limit plan = (none, next))
    (exact : Bool) (key : String) :
    next.storedAt exact key =
      if plan.inGroup exact key then some (store.versionOf (store.host? plan) plan)
      else store.storedAt exact key := by
  rcases add_ok hindexed h with ⟨hexact, rfl⟩ | ⟨hexact, pattern, hpattern, rfl⟩
  · cases exact with
    | true => simp [storedAt, Table.get?_insert, TrapPlan.inGroup, hexact]
    | false => simp [storedAt, startCounter, pattern?, TrapPlan.inGroup, hexact]
  · have hhandle : pattern.handle = store.versionOf (store.host? plan) plan := by
      rw [handle_of_patternOf hpattern, host?, if_neg (by simp [hexact])]
    have hput := (hindexed.startCounter (store.host? plan) plan).pattern?_put pattern key
    rw [hindexed.key_of_patternOf hpattern] at hput
    cases exact with
    | true => rw [putPattern_eq]; simp [storedAt, startCounter, TrapPlan.inGroup, hexact]
    | false =>
        rw [storedAt, if_neg Bool.false_ne_true, hput]
        by_cases hkey : plan.identityKey = key
        · simp [TrapPlan.inGroup, hexact, hkey, hhandle]
        · simp [TrapPlan.inGroup, hexact, hkey, storedAt, startCounter, pattern?]

theorem nextCounter_add (hindexed : Indexed store) (h : store.add limit plan = (none, next)) :
    next.nextCounter = store.nextCounter + 1 := by
  rcases add_ok hindexed h with ⟨-, rfl⟩ | ⟨-, pattern, -, rfl⟩
  · rfl
  · rw [putPattern_eq]
    rfl

theorem injections_add (hindexed : Indexed store) (h : store.add limit plan = (none, next)) :
    next.injections = (store.startCounter (store.host? plan) plan).injections := by
  rcases add_ok hindexed h with ⟨-, rfl⟩ | ⟨-, pattern, -, rfl⟩
  · rfl
  · rw [putPattern_eq]

end

-- How a store comes of the plans that were added to it, in their order.
structure Grouped (added : List TrapPlan) (store : PlanStore) : Prop where
  exact : ∀ key, (store.exact.get? key).map (·.plan) =
    TrapPlan.merged (added.filter (TrapPlan.inGroup true key))
  patterns : ∀ key, (store.pattern? key).map (·.handle.plan) =
    TrapPlan.merged (added.filter (TrapPlan.inGroup false key))
  compiled : ∀ pattern ∈ store.patterns, pattern.Compiled
  indexed : store.Indexed

section

variable {limit : RegexLimit} {added : List TrapPlan} {store store' : PlanStore}
  {plan : TrapPlan}

theorem grouped_empty : Grouped [] {} where
  exact key := by rw [Table.get?_empty]; rfl
  patterns key := by rw [pattern?, Table.get?_empty]; rfl
  compiled pattern hm := by cases hm
  indexed := indexed_empty

-- What is stored as exact is exact, what is stored as a pattern is not, and both have the key under
-- which they are stored.
theorem Grouped.kind_of_exact (h : Grouped added store) {key : String} {handle : PlanHandle}
    (hfound : store.exact.get? key = some handle) :
    handle.plan.isExact = true ∧ handle.plan.identityKey = key := by
  have hgroup := h.exact key
  rw [hfound] at hgroup
  exact TrapPlan.inGroup_of_merged hgroup.symm

theorem Grouped.kind_of_pattern (h : Grouped added store) {pattern : PatternPlan}
    (hm : pattern ∈ store.patterns) : pattern.handle.plan.isExact = false := by
  have hgroup := h.patterns pattern.key
  rw [h.indexed.pattern?_of_mem hm] at hgroup
  exact (TrapPlan.inGroup_of_merged hgroup.symm).1

-- The group of a new plan becomes longer by it, and no other group does.
theorem merged_filter_concat (added : List TrapPlan) (plan : TrapPlan) (exact : Bool)
    (key : String) :
    TrapPlan.merged ((added ++ [plan]).filter (TrapPlan.inGroup exact key)) =
      if plan.inGroup exact key then
        some ((TrapPlan.merged (added.filter (TrapPlan.inGroup exact key))).elim plan
          (·.merge plan))
      else TrapPlan.merged (added.filter (TrapPlan.inGroup exact key)) := by
  rw [List.filter_append]
  by_cases h : plan.inGroup exact key = true
  · rw [if_pos h, List.filter_cons_of_pos h, List.filter_nil, TrapPlan.merged_concat]
  · rw [if_neg h, List.filter_cons_of_neg h, List.filter_nil, List.append_nil]

theorem Grouped.stored (h : Grouped added store) (exact : Bool) (key : String) :
    (store.storedAt exact key).map (·.plan) =
      TrapPlan.merged (added.filter (TrapPlan.inGroup exact key)) := by
  cases exact with
  | true => exact h.exact key
  | false =>
      rw [← h.patterns key, storedAt, if_neg Bool.false_ne_true, Option.map_map]
      rfl

-- The stored plan of a group is merged of its plans, whatever is added.
theorem Grouped.stored_add (h : Grouped added store)
    (hadd : store.add limit plan = (none, store')) (exact : Bool) (key : String) :
    (store'.storedAt exact key).map (·.plan) =
      TrapPlan.merged ((added ++ [plan]).filter (TrapPlan.inGroup exact key)) := by
  rw [storedAt_add h.indexed hadd, merged_filter_concat, ← h.stored]
  by_cases hgroup : plan.inGroup exact key = true
  · obtain ⟨rfl, rfl⟩ := TrapPlan.inGroup_iff.mp hgroup
    rw [if_pos hgroup, if_pos hgroup, Option.map_some, versionOf, host?_eq_storedAt]
    cases store.storedAt plan.isExact plan.identityKey <;> rfl
  · rw [if_neg hgroup, if_neg hgroup]

-- A merge keeps the names that a pattern asks for.
theorem compiled_of_patternOf {found? : Option PatternPlan} {pattern : PatternPlan}
    (h : store.patternOf limit found? plan = .ok pattern)
    (hfound : ∀ found, found? = some found → found.Compiled) : pattern.Compiled := by
  cases found? with
  | none => exact (PatternPlan.compile_ok h).2
  | some found =>
      obtain rfl := Except.ok.inj h
      exact hfound found rfl

theorem Grouped.add (h : Grouped added store) (hadd : store.add limit plan = (none, store')) :
    Grouped (added ++ [plan]) store' where
  exact key := h.stored_add hadd true key
  patterns key := by
    rw [← h.stored_add hadd false key, storedAt, if_neg Bool.false_ne_true, Option.map_map]
    rfl
  compiled pattern hm := by
    rcases add_ok h.indexed hadd with ⟨-, rfl⟩ | ⟨-, added, hadded, rfl⟩
    · exact h.compiled pattern hm
    · rcases mem_patterns_put hm with rfl | hm
      · exact compiled_of_patternOf hadded fun found hfound =>
          h.compiled found (h.indexed.pattern?_iff.mp hfound).1
      · exact h.compiled pattern hm
  indexed := h.indexed.add hadd

-- What an accepted plan keeps of a store and the plans in it, some of them keep together.
theorem extend_induction {plans : List TrapPlan} (Holds : List TrapPlan → PlanStore → Prop)
    (hstep : ∀ {added store plan store'}, Holds added store →
      store.add limit plan = (none, store') → Holds (added ++ [plan]) store')
    (h : Holds added store) (hextend : store.extend limit plans = (none, store')) :
    Holds (added ++ plans) store' := by
  induction plans generalizing added store with
  | nil =>
      obtain ⟨-, rfl⟩ := Prod.mk.inj hextend
      rwa [List.append_nil]
  | cons plan rest ih =>
      unfold PlanStore.extend at hextend
      split at hextend
      · cases (Prod.mk.inj hextend).1
      · rename_i next hadd
        rw [List.append_cons]
        exact ih (hstep h hadd) hextend

theorem Grouped.extend {plans : List TrapPlan} (h : Grouped added store)
    (hextend : store.extend limit plans = (none, store')) : Grouped (added ++ plans) store' :=
  extend_induction Grouped Grouped.add h hextend

end

end PlanStore

end DelayInjection
