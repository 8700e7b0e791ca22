import Mathlib.Algebra.BigOperators.Group.List.Lemmas
import DelayInjection.CommandLine.Answer
import DelayInjection.Proofs.Persist.Readers
import DelayInjection.Proofs.Plan.Listing
import DelayInjection.Proofs.Plan.Replay

-- The plans of a plan file as the inspection command lists them. Every key of a side is listed
-- once, with a window for every different point that has it. In what order the file names its
-- pairs and their sides does not matter for what is listed, only for the order of it.

namespace DelayInjection

theorem TrapPlan.mem_keysOf_iff {exact : Bool} {plans : List TrapPlan} {key : String} :
    key ∈ keysOf exact plans ↔ ∃ plan ∈ plans, plan.isExact = exact ∧ plan.identityKey = key := by
  simp [keysOf, mem_distinct, and_assoc]

-- Keys that are listed once each count all items that have them.
theorem sum_count_of_nodup {α : Type} [DecidableEq α] (items : List α) {keys : List α}
    (hkeys : keys.Nodup) (hmem : ∀ key, key ∈ keys ↔ key ∈ items) :
    (keys.map items.count).sum = items.length := by
  have hperm : keys.Perm items.dedup :=
    (List.perm_ext_iff_of_nodup hkeys items.nodup_dedup).mpr fun key => by
      rw [hmem, List.mem_dedup]
  rw [(hperm.map items.count).sum_eq]
  exact List.sum_map_count_dedup_eq_length items

namespace PlanStore

section

variable {added : List TrapPlan} {store : PlanStore}

theorem Keyed.keys_plans (hkeyed : Keyed added store) (hgrouped : Grouped added store) :
    store.plans.map (·.identityKey) =
      (TrapPlan.keysOf true added).mergeSort (· ≤ ·) ++ TrapPlan.keysOf false added := by
  have horder := congrArg (List.map Prod.snd) (hkeyed.order hgrouped)
  simpa [plans, Function.comp_def] using horder

theorem Keyed.mem_keys_iff (hkeyed : Keyed added store) (hgrouped : Grouped added store)
    (key : String) :
    key ∈ store.plans.map (·.identityKey) ↔ ∃ plan ∈ added, plan.identityKey = key := by
  rw [hkeyed.keys_plans hgrouped, List.mem_append, List.mem_mergeSort, TrapPlan.mem_keysOf_iff,
    TrapPlan.mem_keysOf_iff]
  constructor
  · rintro (⟨plan, hm, -, hkey⟩ | ⟨plan, hm, -, hkey⟩)
    · exact ⟨plan, hm, hkey⟩
    · exact ⟨plan, hm, hkey⟩
  · rintro ⟨plan, hm, hkey⟩
    cases hexact : plan.isExact with
    | true => exact .inl ⟨plan, hm, hexact, hkey⟩
    | false => exact .inr ⟨plan, hm, hexact, hkey⟩

-- Plans of one kind for every key are listed under different keys.
theorem Keyed.nodup_keys (hkeyed : Keyed added store) (hgrouped : Grouped added store)
    (hkind : ∀ plan ∈ added, ∀ other ∈ added, plan.identityKey = other.identityKey →
      plan.isExact = other.isExact) : (store.plans.map (·.identityKey)).Nodup := by
  rw [hkeyed.keys_plans hgrouped, List.nodup_append]
  refine ⟨(List.mergeSort_perm _ _).nodup_iff.mpr (nodup_distinct _), nodup_distinct _, ?_⟩
  rintro key hexact _ hpattern rfl
  rw [List.mem_mergeSort, TrapPlan.mem_keysOf_iff] at hexact
  rw [TrapPlan.mem_keysOf_iff] at hpattern
  obtain ⟨plan, hplan, hexact, hkey⟩ := hexact
  obtain ⟨other, hother, hpattern, hkey'⟩ := hpattern
  have hsame := hkind plan hplan other hother (hkey.trans hkey'.symm)
  rw [hexact, hpattern] at hsame
  cases hsame

end

end PlanStore

-- The patterns of a side.
def PlanPoint.Compiles (limit : RegexLimit) (side : PlanPoint) : Prop :=
  (Pattern.compile? limit side.callee).isSome = true ∧
    (Pattern.compile? limit side.caller).isSome = true

instance (limit : RegexLimit) : DecidablePred (PlanPoint.Compiles limit) := fun side =>
  inferInstanceAs (Decidable (_ = true ∧ (Pattern.compile? limit side.caller).isSome = true))

section

variable {limit : RegexLimit} {lines : List PlanLine} {delayMs : UInt64} {store : PlanStore}
  {plan : TrapPlan}

theorem kind_of_key {other : TrapPlan} (hplan : plan ∈ plansFromPairs lines delayMs)
    (hother : other ∈ plansFromPairs lines delayMs) (hkey : plan.identityKey = other.identityKey) :
    plan.isExact = other.isExact := by
  obtain ⟨side, -, rfl⟩ := mem_plansFromPairs_iff.mp hplan
  obtain ⟨side', -, rfl⟩ := mem_plansFromPairs_iff.mp hother
  rw [Bool.eq_iff_iff, PlanPoint.isExact_toPlan, PlanPoint.isExact_toPlan]
  exact PlanPoint.namesOneSite_congr hkey

theorem hitCounts_of_key (key : String) :
    ((plansFromPairs lines delayMs).filter (·.identityKey == key)).flatMap (·.hitCounts) =
      ((distinct (pointsOf lines)).filter (·.key == key)).map (·.hits) := by
  rw [plansFromPairs, List.filter_map, List.flatMap_map]
  exact List.flatMap_pure_eq_map _ _

theorem repeats_of_key (key : String) :
    ((plansFromPairs lines delayMs).filter (·.identityKey == key)).any (·.repeats) = true ↔
      ∃ side, side.key = key ∧ 2 ≤ (pointsOf lines).count side := by
  simp only [List.any_eq_true, List.mem_filter, mem_plansFromPairs_iff, beq_iff_eq]
  constructor
  · rintro ⟨plan, ⟨⟨side, -, rfl⟩, hkey⟩, hrepeats⟩
    exact ⟨side, hkey, of_decide_eq_true hrepeats⟩
  · rintro ⟨side, hkey, hcount⟩
    have hm : side ∈ pointsOf lines := List.count_pos_iff.mp (by omega)
    exact ⟨_, ⟨⟨side, hm, rfl⟩, hkey⟩, decide_eq_true hcount⟩

-- A listed plan stands for all plans that have its key.
theorem merged_of_listed
    (hgrouped : PlanStore.Grouped (plansFromPairs lines delayMs) store) (hm : plan ∈ store.plans) :
    TrapPlan.merged
      ((plansFromPairs lines delayMs).filter (·.identityKey == plan.identityKey)) = some plan := by
  obtain ⟨handle, hhandle, rfl⟩ := List.mem_map.mp hm
  have hgroup := hgrouped.of_mem_handles hhandle
  obtain ⟨side, -, hkey, hkind⟩ := side_of_merged hgroup
  rw [← hkey, filter_inGroup_of_iff hkind, hkey] at hgroup
  exact hgroup

-- Plans whose patterns compile are all accepted.
theorem extend_of_compiles (h : ∀ side ∈ pointsOf lines, side.Compiles limit) (delayMs : UInt64) :
    ∃ store, PlanStore.extend limit {} (plansFromPairs lines delayMs) = (none, store) := by
  cases hextend : PlanStore.extend limit {} (plansFromPairs lines delayMs) with
  | mk refused store =>
      cases refused with
      | none => exact ⟨store, rfl⟩
      | some text =>
          obtain ⟨plan, rest, hsplit, hrefused⟩ := PlanStore.extend_error hextend
          obtain ⟨-, hnone, hname⟩ := PlanStore.add_error hrefused
          have hm : plan ∈ plansFromPairs lines delayMs := by
            rw [hsplit]
            simp
          obtain ⟨side, hside, rfl⟩ := mem_plansFromPairs_iff.mp hm
          obtain ⟨hcallee, hcaller⟩ := h side hside
          rcases hname with rfl | hname
          · rw [show Pattern.compile? limit side.callee = none from hnone] at hcallee
            cases hcallee
          · obtain rfl : side.caller = text := Option.some.inj hname
            rw [hnone] at hcaller
            cases hcaller

end

namespace CommandLine

-- What is listed for the sides of plan lines. The points are the different sides, in the order in
-- which they first come.
structure Lists (sides points : List PlanPoint) (delayMs : UInt64) (listing : List TrapPlan) :
    Prop where
  firsts : FirstsOf sides points
  once : (listing.map (·.identityKey)).Nodup
  keys : ∀ key, key ∈ listing.map (·.identityKey) ↔ ∃ side ∈ sides, side.key = key
  windows : ∀ plan ∈ listing,
    plan.hitCounts = (points.filter (·.key == plan.identityKey)).map (·.hits)
  total : (listing.map (·.hitCounts.length)).sum = points.length
  repeats : ∀ plan ∈ listing, plan.repeats = true ↔
    ∃ side, side.key = plan.identityKey ∧ 2 ≤ sides.count side
  delay : ∀ plan ∈ listing, plan.fixedDelayMs = some delayMs

-- Two listings with the same entries, whose windows may stand in another order.
structure SameEntries (listing others : List TrapPlan) : Prop where
  keys : ∀ key, key ∈ listing.map (·.identityKey) ↔ key ∈ others.map (·.identityKey)
  entries : ∀ plan ∈ listing, ∀ other ∈ others, plan.identityKey = other.identityKey →
    plan.repeats = other.repeats ∧ plan.hitCounts.Perm other.hitCounts

-- Plan lines in another order, and with their sides in another order.
inductive Rearranged : List PlanLine → List PlanLine → Prop
  | permute {lines others : List PlanLine} (h : lines.Perm others) : Rearranged lines others
  | swap (front back : List PlanLine) (a b : PlanPoint) :
      Rearranged (front ++ (a, b) :: back) (front ++ (b, a) :: back)
  | trans {lines others last : List PlanLine} (h : Rearranged lines others)
      (h' : Rearranged others last) : Rearranged lines last

theorem Rearranged.perm {lines others : List PlanLine} (h : Rearranged lines others) :
    (pointsOf lines).Perm (pointsOf others) := by
  induction h with
  | permute h => exact h.flatMap_right _
  | swap front back a b =>
      simp only [pointsOf, List.flatMap_append, List.flatMap_cons, List.cons_append,
        List.nil_append]
      exact (List.Perm.swap b a _).append_left _
  | trans _ _ ih ih' => exact ih.trans ih'

-- A listing is known but for its order by how often each side comes.
theorem Lists.sameEntries {sides sides' points points' : List PlanPoint} {delayMs : UInt64}
    {listing others : List TrapPlan} (h : Lists sides points delayMs listing)
    (h' : Lists sides' points' delayMs others) (hsides : sides.Perm sides') :
    SameEntries listing others := by
  have hpoints := h.firsts.perm h'.firsts hsides
  refine ⟨fun key => ?_, fun plan hplan other hother hkey => ⟨?_, ?_⟩⟩
  · rw [h.keys, h'.keys]
    simp only [hsides.mem_iff]
  · rw [Bool.eq_iff_iff, h.repeats plan hplan, h'.repeats other hother, hkey]
    simp only [hsides.count_eq]
  · rw [h.windows plan hplan, h'.windows other hother, hkey]
    exact (hpoints.filter _).map _

-- Every point has its window in the one entry that has its key.
theorem length_windows {points : List PlanPoint} {listing : List TrapPlan}
    (honce : (listing.map (·.identityKey)).Nodup)
    (hkeys : ∀ key, key ∈ listing.map (·.identityKey) ↔ ∃ point ∈ points, point.key = key)
    (hwindows : ∀ plan ∈ listing,
      plan.hitCounts = (points.filter (·.key == plan.identityKey)).map (·.hits)) :
    (listing.map (·.hitCounts.length)).sum = points.length := by
  have hcount := sum_count_of_nodup (points.map (·.key)) honce fun key => by
    rw [hkeys, List.mem_map]
  rw [List.length_map, List.map_map] at hcount
  rw [← hcount]
  congr 1
  apply List.map_congr_left
  intro plan hm
  rw [hwindows plan hm, List.length_map, Function.comp_apply, List.count, List.countP_map,
    List.countP_eq_length_filter]
  rfl

theorem lists_of_extend {limit : RegexLimit} {lines : List PlanLine} {delayMs : UInt64}
    {store : PlanStore}
    (h : PlanStore.extend limit {} (plansFromPairs lines delayMs) = (none, store)) :
    Lists (pointsOf lines) (distinct (pointsOf lines)) delayMs store.plans := by
  obtain ⟨hgrouped, hkeyed⟩ := PlanStore.keyed_empty.extend PlanStore.grouped_empty h
  rw [List.nil_append] at hgrouped hkeyed
  have hfirsts := firstsOf_distinct (pointsOf lines)
  have honce := hkeyed.nodup_keys hgrouped fun _ hplan _ hother => kind_of_key hplan hother
  have hkeys : ∀ key, key ∈ store.plans.map (·.identityKey) ↔
      ∃ side ∈ pointsOf lines, side.key = key := by
    intro key
    rw [hkeyed.mem_keys_iff hgrouped]
    constructor
    · rintro ⟨plan, hm, rfl⟩
      obtain ⟨side, hside, rfl⟩ := mem_plansFromPairs_iff.mp hm
      exact ⟨side, hside, rfl⟩
    · rintro ⟨side, hside, rfl⟩
      exact ⟨_, mem_plansFromPairs_iff.mpr ⟨side, hside, rfl⟩, rfl⟩
  have hwindows : ∀ plan ∈ store.plans, plan.hitCounts =
      ((distinct (pointsOf lines)).filter (·.key == plan.identityKey)).map (·.hits) := by
    intro plan hm
    obtain ⟨_, _, -, hplan⟩ := TrapPlan.merged_eq_some (merged_of_listed hgrouped hm)
    rw [← hitCounts_of_key]
    exact congrArg TrapPlan.hitCounts hplan
  refine ⟨hfirsts, honce, hkeys, hwindows, ?_, fun plan hm => ?_, fun plan hm => ?_⟩
  · refine length_windows honce (fun key => ?_) hwindows
    rw [hkeys]
    simp only [mem_distinct]
  · obtain ⟨_, _, -, hplan⟩ := TrapPlan.merged_eq_some (merged_of_listed hgrouped hm)
    rw [← repeats_of_key, ← Bool.eq_iff_iff]
    exact congrArg TrapPlan.repeats hplan
  · exact fixedDelay_of_merged (merged_of_listed hgrouped hm)

section

variable {content : String} {delayMs : UInt64} {plans : List TrapPlan}

-- The listing of a file that the strict reader accepts is that of a store with its plans.
theorem mergedPlans_eq_ok_iff (haccepted : PlanFile.parseStrict (.ok content) delayMs = .ok plans)
    (limit : RegexLimit) (path : String) {listing : List TrapPlan} :
    mergedPlans limit path delayMs (.ok content) = .ok listing ↔ ∃ store,
      PlanStore.extend limit {} (plansFromPairs (PlanFile.report content).items delayMs) =
        (none, store) ∧ store.plans = listing := by
  have hplans : plans = plansFromPairs (PlanFile.report content).items delayMs := by
    rw [PlanFile.parseStrict_text] at haccepted
    cases hstrict : (PlanFile.report content).strict with
    | error e =>
        rw [hstrict] at haccepted
        cases haccepted
    | ok lines =>
        rw [hstrict] at haccepted
        rw [(LineReport.strict_eq_ok_iff.mp hstrict).2]
        exact (Except.ok.inj haccepted).symm
  rw [mergedPlans, haccepted, ← hplans]
  dsimp only
  cases PlanStore.extend limit {} plans with
  | mk refused store => cases refused <;> simp

-- The merged listing of a file loses and repeats nothing, and is there if all patterns compile.
-- Another order of the pairs, or of the two points in a pair, lists the same but for its order.
theorem mergedPlans_exact (haccepted : PlanFile.parseStrict (.ok content) delayMs = .ok plans)
    (limit : RegexLimit) (path : String) :
    let lines := (PlanFile.report content).items
    let compile := ∀ side ∈ pointsOf lines, side.Compiles limit
    (compile → ∃ listing, mergedPlans limit path delayMs (.ok content) = .ok listing) ∧
    ∀ listing, mergedPlans limit path delayMs (.ok content) = .ok listing →
      Lists (pointsOf lines) (distinct (pointsOf lines)) delayMs listing ∧
      ∀ others, Rearranged lines others →
        (compile →
          ∃ store, PlanStore.extend limit {} (plansFromPairs others delayMs) = (none, store)) ∧
        ∀ store, PlanStore.extend limit {} (plansFromPairs others delayMs) = (none, store) →
          SameEntries listing store.plans := by
  intro lines compile
  refine ⟨fun hcompile => ?_, fun listing hlisting => ?_⟩
  · obtain ⟨store, hstore⟩ := extend_of_compiles hcompile delayMs
    exact ⟨store.plans, (mergedPlans_eq_ok_iff haccepted limit path).mpr ⟨store, hstore, rfl⟩⟩
  · obtain ⟨store, hstore, rfl⟩ := (mergedPlans_eq_ok_iff haccepted limit path).mp hlisting
    have hlists := lists_of_extend hstore
    refine ⟨hlists, fun others hothers => ⟨fun hcompile => ?_, fun rearranged hrearranged => ?_⟩⟩
    · exact extend_of_compiles
        (fun side hside => hcompile side (hothers.perm.mem_iff.mpr hside)) delayMs
    · exact hlists.sameEntries (lists_of_extend hrearranged) hothers.perm

end

-- Two pairs at three call sites. The call site that three of the sides have is listed with the
-- counts of two of them, of which one comes twice.
namespace Sample

def first : PlanLine := (⟨"Add*", "Main", 1, 5, 2⟩, ⟨"Get", "Main", 3, 7, 4⟩)

def second : PlanLine := (⟨"Get", "Main", 3, 7, 4⟩, ⟨"Get", "Main", 3, 9, 4⟩)

def content : String :=
  "# old\n" ++ PlanLine.format first.1.text first.2.text ++ "\n\n" ++
    PlanLine.format second.1.text second.2.text

theorem items_content : (PlanFile.report content).items = [first, second] := by decide +kernel

theorem accepted : PlanFile.parseStrict (.ok content) 100 =
    .ok (plansFromPairs (PlanFile.report content).items 100) := by
  have hstrict : (PlanFile.report content).strict = .ok (PlanFile.report content).items :=
    LineReport.strict_eq_ok_iff.mpr ⟨by decide +kernel, rfl⟩
  rw [PlanFile.parseStrict_text, hstrict]
  rfl

end Sample

theorem mergedPlans_exact_of_shared :
    ∃ listing, mergedPlans Pattern.Sample.limit "plans.log" 100 (.ok Sample.content) = .ok listing ∧
      (listing.map (·.hitCounts.length)).sum = 3 ∧
      (∀ plan ∈ listing, plan.identityKey = "Get;Main;3" →
        plan.hitCounts =
            [{ localHits := 4, globalHits := 7 }, { localHits := 4, globalHits := 9 }] ∧
          plan.repeats = true) ∧
      ∃ store, PlanStore.extend Pattern.Sample.limit {}
            (plansFromPairs [Sample.second.swap, Sample.first] 100) =
          (none, store) ∧ SameEntries listing store.plans := by
  obtain ⟨hexists, hexact⟩ := mergedPlans_exact Sample.accepted Pattern.Sample.limit "plans.log"
  rw [Sample.items_content] at hexists hexact
  have hcompile : ∀ side ∈ pointsOf [Sample.first, Sample.second],
      side.Compiles Pattern.Sample.limit := by
    decide +kernel
  obtain ⟨listing, hlisting⟩ := hexists hcompile
  obtain ⟨hlists, hothers⟩ := hexact listing hlisting
  have hrearranged : Rearranged [Sample.first, Sample.second] [Sample.second.swap, Sample.first] :=
    .trans (.permute (.swap _ _ _)) (.swap [] [Sample.first] _ _)
  obtain ⟨hstore, hsame⟩ := hothers _ hrearranged
  obtain ⟨store, hstore⟩ := hstore hcompile
  refine ⟨listing, hlisting, ?_, fun plan hm hkey => ⟨?_, ?_⟩, store, hstore, hsame store hstore⟩
  · rw [hlists.total]
    decide +kernel
  · rw [hlists.windows plan hm, hkey]
    decide +kernel
  · rw [hlists.repeats plan hm, hkey]
    exact ⟨Sample.second.1, by decide +kernel, by decide +kernel⟩

end CommandLine

end DelayInjection
