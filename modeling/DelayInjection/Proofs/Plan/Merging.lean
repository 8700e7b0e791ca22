import DelayInjection.Proofs.Plan.Listing

-- Which calls a stored plan accepts after another plan was merged into it. The stored plan keeps
-- its thread and takes over the hit counts of the other one; an empty list of hit counts, which
-- accepts every hit, adds nothing to a list that is not empty.

namespace DelayInjection

namespace TrapPlan

section

variable {plan other : TrapPlan} {localHits globalHits globalWindow localWindow : Int64}

theorem acceptsHits_iff :
    plan.acceptsHits localHits globalHits globalWindow localWindow = true ↔
      plan.hitCounts = [] ∨ ∃ hit ∈ plan.hitCounts,
        hit.accepts localHits localWindow globalHits globalWindow = true := by
  rw [acceptsHits, Bool.or_eq_true, List.isEmpty_iff, List.any_eq_true]

-- No hit is accepted that neither of the plans accepts.
theorem acceptsHits_of_merge
    (h : (plan.merge other).acceptsHits localHits globalHits globalWindow localWindow = true) :
    plan.acceptsHits localHits globalHits globalWindow localWindow = true ∨
      other.acceptsHits localHits globalHits globalWindow localWindow = true := by
  simp only [acceptsHits_iff, merge] at h ⊢
  rcases h with hempty | ⟨hit, hm, haccepts⟩
  · exact .inl (.inl (List.append_eq_nil_iff.mp hempty).1)
  · rcases List.mem_append.mp hm with hm | hm
    · exact .inl (.inr ⟨hit, hm, haccepts⟩)
    · exact .inr (.inr ⟨hit, hm, haccepts⟩)

-- No hit is lost if both plans have hit counts, or neither has.
theorem acceptsHits_merge (hsame : plan.hitCounts = [] ↔ other.hitCounts = [])
    (h : plan.acceptsHits localHits globalHits globalWindow localWindow = true ∨
      other.acceptsHits localHits globalHits globalWindow localWindow = true) :
    (plan.merge other).acceptsHits localHits globalHits globalWindow localWindow = true := by
  simp only [acceptsHits_iff, merge] at h ⊢
  rcases h with (hempty | ⟨hit, hm, haccepts⟩) | (hempty | ⟨hit, hm, haccepts⟩)
  · exact .inl (List.append_eq_nil_iff.mpr ⟨hempty, hsame.mp hempty⟩)
  · exact .inr ⟨hit, List.mem_append_left _ hm, haccepts⟩
  · exact .inl (List.append_eq_nil_iff.mpr ⟨hsame.mpr hempty, hempty⟩)
  · exact .inr ⟨hit, List.mem_append_right _ hm, haccepts⟩

end

-- A plan as it acts on the threads of another one.
def onThreadOf (plan host : TrapPlan) : TrapPlan := { plan with thread := host.thread }

theorem onThreadOf_eq {plan host : TrapPlan} (h : plan.thread = host.thread) :
    plan.onThreadOf host = plan := by
  rw [onThreadOf, ← h]

section

variable {plan other : TrapPlan} {point : Point} {globalWindow localWindow : Int64}

theorem acceptsPoint_of_merge
    (h : (plan.merge other).acceptsPoint point globalWindow localWindow = true) :
    plan.acceptsPoint point globalWindow localWindow = true ∨
      (other.onThreadOf plan).acceptsPoint point globalWindow localWindow = true := by
  simp only [acceptsPoint, Bool.and_eq_true] at h ⊢
  obtain ⟨hthread, hhits⟩ := h
  exact (acceptsHits_of_merge hhits).imp (⟨hthread, ·⟩) (⟨hthread, ·⟩)

theorem acceptsPoint_merge (hsame : plan.hitCounts = [] ↔ other.hitCounts = [])
    (h : plan.acceptsPoint point globalWindow localWindow = true ∨
      (other.onThreadOf plan).acceptsPoint point globalWindow localWindow = true) :
    (plan.merge other).acceptsPoint point globalWindow localWindow = true := by
  simp only [acceptsPoint, Bool.and_eq_true] at h ⊢
  rcases h with ⟨hthread, hhits⟩ | ⟨hthread, hhits⟩
  · exact ⟨hthread, acceptsHits_merge hsame (.inl hhits)⟩
  · exact ⟨hthread, acceptsHits_merge hsame (.inr hhits)⟩

end

end TrapPlan

namespace PlanStore

-- An item of a list and what takes its place stand between the same others.
theorem exists_split_set {α : Type} {items : List α} {index : Nat} {old : α}
    (h : items[index]? = some old) (new : α) :
    ∃ front back, items = front ++ old :: back ∧ items.set index new = front ++ new :: back := by
  obtain ⟨hlt, rfl⟩ := List.getElem?_eq_some_iff.mp h
  refine ⟨items.take index, items.drop (index + 1), ?_, ?_⟩
  · rw [List.getElem_cons_drop hlt, List.take_append_drop]
  · rw [List.set_eq_take_append_cons_drop, if_pos hlt]

section

variable {limit : RegexLimit} {store : PlanStore} {plan : TrapPlan} {host : PlanHandle}

theorem addExact_of_found {key : String} (hfound : store.exact.get? key = some host) :
    ∃ merged, merged.plan = host.plan.merge plan ∧
      (store.addExact key plan).exact.get? key = some merged ∧
      ∃ front back, store.handles = front ++ host :: back ∧
        (store.addExact key plan).handles = front ++ merged :: back := by
  obtain ⟨front, back, hold, hnew⟩ := Table.filterMap_get?_insert hfound
    { plan := host.plan.merge plan, counter := store.nextCounter }
    (List.mergeSort_perm store.exact.keys (· ≤ ·))
  simp only [addExact, hfound, mergeHandle, newHandle]
  refine ⟨_, rfl, Table.get?_insert_self _ _ _, front, back ++ store.patterns.map (·.handle),
    ?_, ?_⟩
  · rw [handles_eq, hold, List.append_assoc, List.cons_append]
  · rw [handles_eq, Table.keys_insert_of_get? hfound, hnew, List.append_assoc, List.cons_append]

theorem addPattern_of_found {key : String} {pattern : PatternPlan}
    (hfound : store.pattern? key = some pattern) :
    ∃ next merged, store.addPattern limit key plan = (none, next) ∧
      merged.handle.plan = pattern.handle.plan.merge plan ∧
      next.pattern? key = some merged ∧
      ∃ front back, store.handles = front ++ pattern.handle :: back ∧
        next.handles = front ++ merged.handle :: back := by
  obtain ⟨index, hindex, hat⟩ := Option.bind_eq_some_iff.mp hfound
  let merged : PatternPlan :=
    { pattern with handle := ⟨pattern.handle.plan.merge plan, store.nextCounter⟩ }
  have hlt := (List.getElem?_eq_some_iff.mp hat).1
  obtain ⟨front, back, hold, hnew⟩ := exists_split_set hat merged
  refine ⟨store.mergePattern index plan, merged, ?_, rfl, ?_,
    (store.exact.keys.mergeSort (· ≤ ·)).filterMap store.exact.get? ++ front.map (·.handle),
    back.map (·.handle), ?_, ?_⟩
  · rw [addPattern, hindex]
  · simp only [pattern?, mergePattern, hat, mergeHandle, newHandle, hindex, Option.bind_some]
    exact List.getElem?_set_self hlt
  · rw [handles_eq, hold, List.map_append, List.map_cons, List.append_assoc]
  · simp only [mergePattern, hat, mergeHandle, newHandle]
    rw [handles_eq, hnew, List.map_append, List.map_cons, List.append_assoc]

-- A merged plan takes the place of its host, and no other plan changes.
theorem add_of_host (limit : RegexLimit) (hhost : store.host? plan = some host) :
    ∃ next merged, store.add limit plan = (none, next) ∧ merged.plan = host.plan.merge plan ∧
      next.host? plan = some merged ∧
      ∃ front back, store.handles = front ++ host :: back ∧
        next.handles = front ++ merged :: back := by
  unfold host? at hhost ⊢
  unfold PlanStore.add
  by_cases hexact : plan.isExact = true
  · simp only [if_pos hexact] at hhost ⊢
    obtain ⟨merged, hplan, hget, hlisted⟩ := addExact_of_found hhost
    exact ⟨_, merged, rfl, hplan, hget, hlisted⟩
  · simp only [if_neg hexact] at hhost ⊢
    obtain ⟨pattern, hpattern, rfl⟩ := Option.map_eq_some_iff.mp hhost
    obtain ⟨next, merged, hadd, hplan, hget, hlisted⟩ := addPattern_of_found hpattern
    exact ⟨next, merged.handle, hadd, hplan, by rw [hget, Option.map_some], hlisted⟩

-- A merge invents no match: the merged plan accepts only points that the stored plan accepted, or
-- that the other one accepts on the threads of the stored plan. It loses none if both plans have
-- hit counts, or neither has.
theorem merge_joins_matches (limit : RegexLimit) (hhost : store.host? plan = some host) :
    ∃ next merged, store.add limit plan = (none, next) ∧ next.host? plan = some merged ∧
      (∃ front back, store.handles = front ++ host :: back ∧
        next.handles = front ++ merged :: back) ∧
      merged.plan.thread = host.plan.thread ∧
      (∀ (point : Point) (globalWindow localWindow : Int64),
        let accepts := fun plan : TrapPlan =>
          plan.acceptsPoint point globalWindow localWindow = true
        (accepts merged.plan → accepts host.plan ∨ accepts (plan.onThreadOf host.plan)) ∧
          ((host.plan.hitCounts = [] ↔ plan.hitCounts = []) →
            accepts host.plan ∨ accepts (plan.onThreadOf host.plan) → accepts merged.plan)) ∧
      (plan.thread = host.plan.thread → plan.onThreadOf host.plan = plan) := by
  obtain ⟨next, merged, hadd, hplan, hget, hlisted⟩ := add_of_host limit hhost
  refine ⟨next, merged, hadd, hget, hlisted, by rw [hplan]; rfl,
    fun point globalWindow localWindow => ?_, TrapPlan.onThreadOf_eq⟩
  dsimp only
  rw [hplan]
  exact ⟨TrapPlan.acceptsPoint_of_merge, TrapPlan.acceptsPoint_merge⟩

end

-- A plan for one hit, and others with its key: for a later hit, for any hit, and for one thread.
namespace Sample

def early : TrapPlan :=
  { callee := "Add", caller := some "Main", offset := 1, hitCounts := [{ localHits := 3 }] }

def late : TrapPlan := { early with hitCounts := [{ localHits := 40 }] }

def always : TrapPlan := { early with hitCounts := [] }

def lateOn (thread : ThreadId) : TrapPlan := { late with thread := some thread }

def pointAt (localHits : Int64) : Point :=
  { callee := "Add", caller := "Main", offset := 1, thread := 2, localHits }

def storeOf (plan : TrapPlan) : PlanStore := (serveAll Pattern.Sample.limit [.add plan]).2

theorem host_storeOf (plan other : TrapPlan) (hplan : plan.isExact = true)
    (hother : other.isExact = true) (hkey : other.identityKey = plan.identityKey) :
    (storeOf plan).host? other = some { plan, counter := 0 } := by
  have hserve : (Request.add plan).serve Pattern.Sample.limit {} =
      (none, PlanStore.addExact {} plan.identityKey plan) := if_pos hplan
  rw [storeOf, serveAll, List.foldl_cons, List.foldl_nil, served, hserve, host?, if_pos hother,
    hkey]
  exact Table.get?_insert_self _ _ _

end Sample

theorem merge_joins_matches_late : ∃ next merged,
    (Sample.storeOf Sample.early).add Pattern.Sample.limit Sample.late = (none, next) ∧
      next.host? Sample.late = some merged ∧
      merged.plan.acceptsPoint (Sample.pointAt 7) 20 5 = true ∧
      merged.plan.acceptsPoint (Sample.pointAt 41) 20 5 = true ∧
      ¬ merged.plan.acceptsPoint (Sample.pointAt 20) 20 5 = true := by
  obtain ⟨next, merged, hadd, hget, -, -, haccepts, hthread⟩ :=
    merge_joins_matches Pattern.Sample.limit (Sample.host_storeOf Sample.early Sample.late
      (by decide +kernel) (by decide +kernel) (by decide +kernel))
  rw [hthread rfl] at haccepts
  have hboth : Sample.early.hitCounts = [] ↔ Sample.late.hitCounts = [] := ⟨nofun, nofun⟩
  refine ⟨next, merged, hadd, hget, ?_, ?_, fun h => ?_⟩
  · exact (haccepts _ 20 5).2 hboth (.inl (by decide +kernel))
  · exact (haccepts _ 20 5).2 hboth (.inr (by decide +kernel))
  · exact absurd ((haccepts _ 20 5).1 h) (by decide +kernel)

-- That a merged plan accepts what one of the two plans accepts, where they are related somehow.
def JoinsMatches (related : TrapPlan → TrapPlan → Prop) : Prop :=
  ∀ (limit : RegexLimit) (store next : PlanStore) (plan : TrapPlan) (host merged : PlanHandle),
    related host.plan plan → store.host? plan = some host → store.add limit plan = (none, next) →
    next.host? plan = some merged →
    ∀ (point : Point) (globalWindow localWindow : Int64),
      0 ≤ globalWindow.toInt → 0 ≤ localWindow.toInt →
      (merged.plan.acceptsPoint point globalWindow localWindow = true ↔
        host.plan.acceptsPoint point globalWindow localWindow = true ∨
          plan.acceptsPoint point globalWindow localWindow = true)

theorem Sample.not_joinsMatches (plan other : TrapPlan) (localHits : Int64)
    {related : TrapPlan → TrapPlan → Prop} (hplan : plan.isExact = true)
    (hother : other.isExact = true) (hkey : other.identityKey = plan.identityKey)
    (hrelated : related plan other)
    (hlost : (plan.merge other).acceptsPoint (pointAt localHits) 20 5 = false)
    (hfound : plan.acceptsPoint (pointAt localHits) 20 5 = true ∨
      other.acceptsPoint (pointAt localHits) 20 5 = true) : ¬ JoinsMatches related := by
  intro hclaim
  have hhost := host_storeOf plan other hplan hother hkey
  obtain ⟨next, merged, hadd, hmerged, hget, -⟩ := add_of_host Pattern.Sample.limit hhost
  have haccepts := (hclaim _ _ next other _ merged hrelated hhost hadd hget (pointAt localHits) 20 5
    (by decide) (by decide)).mpr hfound
  rw [hmerged, hlost] at haccepts
  cases haccepts

-- The thread of the merged-in plan is lost, and a plan for any hit is narrowed by one that has
-- hit counts.
theorem merge_splits_matches :
    ¬ JoinsMatches (fun _ _ => True) ∧
      ¬ JoinsMatches (fun host plan => host.hitCounts ≠ [] ∧ plan.hitCounts ≠ []) ∧
      ¬ JoinsMatches (fun host plan => host.thread = plan.thread) := by
  have hthreads :
      ¬ JoinsMatches (fun host plan => host.hitCounts ≠ [] ∧ plan.hitCounts ≠ []) :=
    Sample.not_joinsMatches (Sample.lateOn 1) (Sample.lateOn 2) 40 (by decide +kernel)
      (by decide +kernel) (by decide +kernel) ⟨nofun, nofun⟩ (by decide +kernel)
      (.inr (by decide +kernel))
  refine ⟨fun hclaim => ?_, hthreads, ?_⟩
  · exact hthreads fun limit store next plan host merged _ =>
      hclaim limit store next plan host merged trivial
  · exact Sample.not_joinsMatches Sample.always Sample.early 50 (by decide +kernel)
      (by decide +kernel) (by decide +kernel) rfl (by decide +kernel) (.inl (by decide +kernel))

end PlanStore

end DelayInjection
