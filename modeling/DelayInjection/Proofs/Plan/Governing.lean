import Mathlib.Data.List.Induction
import DelayInjection.Proofs.Pattern
import DelayInjection.Proofs.Plan.Grouping
import DelayInjection.Proofs.Table

-- Which call sites an exact plan governs. The key of a plan joins its names by semicolons, and
-- names may hold semicolons themselves, so that two call sites can have one key.

namespace DelayInjection

namespace PlanStore

-- The store of some plans, offered in their order. A plan that is refused leaves it as it is.
def ofOffers (limit : RegexLimit) (plans : List TrapPlan) : PlanStore :=
  plans.foldl (fun store plan => (store.add limit plan).2) {}

section

variable {limit : RegexLimit} {added : List TrapPlan} {store : PlanStore}

theorem Grouped.offer (h : Grouped added store) (limit : RegexLimit) (plan : TrapPlan) :
    ∃ taken, taken.Sublist [plan] ∧ Grouped (added ++ taken) (store.add limit plan).2 := by
  cases hadd : store.add limit plan with
  | mk refused? next =>
      cases refused? with
      | some text =>
          refine ⟨[], List.nil_sublist _, ?_⟩
          rw [List.append_nil, add_refused hadd]
          exact h
      | none => exact ⟨[plan], List.Sublist.refl _, h.add hadd⟩

-- Whatever is refused, the store holds the groups of the plans that were taken.
theorem grouped_ofOffers (limit : RegexLimit) (plans : List TrapPlan) :
    ∃ taken, taken.Sublist plans ∧ Grouped taken (ofOffers limit plans) := by
  induction plans using List.reverseRecOn with
  | nil => exact ⟨[], List.Sublist.refl _, grouped_empty⟩
  | append_singleton plans plan ih =>
      obtain ⟨taken, hsub, hgrouped⟩ := ih
      obtain ⟨last, hlast, hnext⟩ := hgrouped.offer limit plan
      refine ⟨taken ++ last, hsub.append hlast, ?_⟩
      rwa [ofOffers, List.foldl_append]

-- An exact plan that is found was looked up by the key of the point.
theorem Grouped.key_of_find? (h : Grouped added store) {point : Point}
    {globalWindow localWindow : Int64} {handle : PlanHandle}
    (hfound : store.find? point globalWindow localWindow = some handle)
    (hexact : handle.plan.isExact = true) :
    handle.plan.identityKey = TrapPlan.keyOf point.callee point.caller point.offset := by
  unfold find? at hfound
  split at hfound
  · rename_i found hget
    split at hfound
    · obtain rfl := Option.some.inj hfound
      exact (h.kind_of_exact hget).2
    · cases hfound
  · -- what is stored as a pattern is not exact
    obtain ⟨pattern, hpattern, rfl⟩ := Option.map_eq_some_iff.mp hfound
    rw [h.kind_of_pattern (List.mem_of_find?_eq_some hpattern)] at hexact
    cases hexact

end

-- An exact plan that is found for a point has the offset of the point, and names that join to
-- those of the point. It names the point's own call site if the joined names are cut at the same
-- semicolon, that is if both callees hold equally many, and another call site if not.
theorem exact_governs_joined (limit : RegexLimit) (plans : List TrapPlan) (point : Point)
    (globalWindow localWindow : Int64) (handle : PlanHandle)
    (hfound : (ofOffers limit plans).find? point globalWindow localWindow = some handle)
    (hexact : handle.plan.isExact = true) :
    let plan := handle.plan
    plan.offset = point.offset ∧ ∃ caller, plan.caller = some caller ∧
      plan.callee ++ ";" ++ caller = point.callee ++ ";" ++ point.caller ∧
      ((plan.callee = point.callee ∧ caller = point.caller) ↔
        plan.callee.toList.count ';' = point.callee.toList.count ';') := by
  obtain ⟨taken, -, hgrouped⟩ := grouped_ofOffers limit plans
  have hkey := hgrouped.key_of_find? hfound hexact
  obtain ⟨-, ⟨caller, hcaller, -⟩, -⟩ := handle.plan.isExact_iff.mp hexact
  rw [TrapPlan.identityKey, hcaller, Option.getD_some] at hkey
  obtain ⟨hnames, hoffset⟩ := TrapPlan.keyOf_eq_iff.mp hkey
  refine ⟨hoffset, caller, hcaller, ?_, ?_⟩
  · rw [← String.toList_inj]
    simpa using hnames
  · rw [← Text.front_eq_iff_count_eq hnames, String.toList_inj]
    constructor
    · exact fun hsame => hsame.1
    · intro hcallee
      rw [hcallee, List.append_cancel_left_eq, List.cons.injEq, String.toList_inj] at hnames
      exact ⟨hcallee, hnames.2⟩

-- Two plans with one key, of which the first gives the stored plan its names.
namespace Sample

def plans : List TrapPlan :=
  [{ callee := "Add;Main", caller := some "Run", offset := 1 },
    { callee := "Add", caller := some "Main;Run", offset := 1 }]

def point (callee caller : String) : Point := { callee, caller, offset := 1, thread := 1 }

end Sample

theorem exact_governs_joined_own :
    ∃ handle,
      (ofOffers Pattern.Sample.limit Sample.plans).find?
        (Sample.point "Add;Main" "Run") 20 5 = some handle ∧
        handle.plan.callee = "Add;Main" := by
  have hfound : ((ofOffers Pattern.Sample.limit Sample.plans).find?
      (Sample.point "Add;Main" "Run") 20 5).any
        (fun handle => handle.plan.isExact && handle.plan.callee.toList.count ';' == 1) = true := by
    decide +kernel
  obtain ⟨handle, hhandle, hchecked⟩ := (Option.any_eq_true _ _).mp hfound
  obtain ⟨hexact, hcount⟩ := Bool.and_eq_true_iff.mp hchecked
  obtain ⟨-, caller, -, -, hown⟩ := exact_governs_joined Pattern.Sample.limit Sample.plans
    (Sample.point "Add;Main" "Run") 20 5 handle hhandle hexact
  exact ⟨handle, hhandle, (hown.mpr (beq_iff_eq.mp hcount)).1⟩

-- The stored plan governs the site of the second plan too, which it does not name.
theorem exact_governs_shifted :
    ¬ ∀ (limit : RegexLimit) (plans : List TrapPlan) (point : Point)
      (globalWindow localWindow : Int64) (handle : PlanHandle),
      (ofOffers limit plans).find? point globalWindow localWindow = some handle →
      handle.plan.isExact = true →
      handle.plan.callee = point.callee ∧ handle.plan.caller = some point.caller ∧
        handle.plan.offset = point.offset := by
  intro hclaim
  have hfound : ((ofOffers Pattern.Sample.limit Sample.plans).find?
      (Sample.point "Add" "Main;Run") 20 5).any
        (fun handle => handle.plan.isExact && handle.plan.callee == "Add;Main") = true := by
    decide +kernel
  obtain ⟨handle, hhandle, hchecked⟩ := (Option.any_eq_true _ _).mp hfound
  obtain ⟨hexact, hcallee⟩ := Bool.and_eq_true_iff.mp hchecked
  obtain ⟨hsame, -⟩ := hclaim Pattern.Sample.limit Sample.plans (Sample.point "Add" "Main;Run")
    20 5 handle hhandle hexact
  rw [beq_iff_eq.mp hcallee] at hsame
  exact absurd hsame (by decide)

end PlanStore

end DelayInjection
