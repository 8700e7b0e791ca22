import DelayInjection.Proofs.Plan.Listing

-- Looking plans up. A store finds exact plans by their keys and tries the patterns in order; the
-- answer is the one that is found by going through the listed plans one after the other.

namespace DelayInjection

namespace TrapPlan

-- Whether a plan, read as a pattern, asks for a point.
def asksFor (plan : TrapPlan) (point : Point) (globalWindow localWindow : Int64) : Bool :=
  Pattern.accepts ⟨plan.callee⟩ point.callee &&
    plan.caller.all (fun caller => Pattern.accepts ⟨caller⟩ point.caller) &&
    (plan.offset.toInt < 0 || plan.offset == point.offset) &&
    plan.acceptsPoint point globalWindow localWindow

end TrapPlan

namespace PatternPlan

-- The matchers of a stored pattern are those of its plan, whatever was merged into the plan.
theorem Compiled.accepts_eq {pattern : PatternPlan} (h : pattern.Compiled) (point : Point)
    (globalWindow localWindow : Int64) :
    pattern.accepts point globalWindow localWindow =
      pattern.handle.plan.asksFor point globalWindow localWindow := by
  obtain ⟨hcallee, hcaller⟩ := h
  rw [accepts, TrapPlan.asksFor, ← hcallee, ← hcaller, Option.all_map]

end PatternPlan

namespace PlanStore

-- Goes through listed plans. An exact plan with the key of the point decides alone; without one
-- the first pattern that asks for the point is taken.
def scan (handles : List PlanHandle) (point : Point) (globalWindow localWindow : Int64) :
    Option PlanHandle :=
  let key := TrapPlan.keyOf point.callee point.caller point.offset
  match handles.find? fun handle => handle.plan.isExact && handle.plan.identityKey == key with
  | some handle =>
      if handle.plan.acceptsPoint point globalWindow localWindow then some handle else none
  | none =>
      handles.find? fun handle =>
        !handle.plan.isExact && handle.plan.asksFor point globalWindow localWindow

section

variable {added : List TrapPlan} {store : PlanStore} {handle : PlanHandle} {key : String}

-- What is found under a key is the listed exact plan with this key.
theorem Grouped.get?_exact_iff (h : Grouped added store) :
    store.exact.get? key = some handle ↔
      handle ∈ store.handles ∧ handle.plan.isExact = true ∧ handle.plan.identityKey = key := by
  constructor
  · intro hfound
    exact ⟨mem_handles_iff.mpr (.inl ⟨key, hfound⟩), h.kind_of_exact hfound⟩
  · rintro ⟨hm, hexact, rfl⟩
    rcases mem_handles_iff.mp hm with ⟨other, hfound⟩ | ⟨pattern, hpattern, rfl⟩
    · rwa [(h.kind_of_exact hfound).2]
    · rw [h.kind_of_pattern hpattern] at hexact
      cases hexact

theorem Grouped.find?_exact (h : Grouped added store) (key : String) :
    (store.handles.find? fun handle => handle.plan.isExact && handle.plan.identityKey == key) =
      store.exact.get? key := by
  have hfinds : ∀ handle : PlanHandle,
      (handle ∈ store.handles ∧ (handle.plan.isExact && handle.plan.identityKey == key) = true) ↔
        store.exact.get? key = some handle := fun handle => by
    rw [h.get?_exact_iff, Bool.and_eq_true, beq_iff_eq]
  cases hfind : store.handles.find? fun handle =>
      handle.plan.isExact && handle.plan.identityKey == key with
  | some handle =>
      have hkey := List.find?_some
        (p := fun handle : PlanHandle =>
          handle.plan.isExact && handle.plan.identityKey == key) hfind
      exact ((hfinds handle).mp ⟨List.mem_of_find?_eq_some hfind, hkey⟩).symm
  | none =>
      refine (Option.eq_none_iff_forall_ne_some.mpr fun handle hfound => ?_).symm
      obtain ⟨hm, hkey⟩ := (hfinds handle).mpr hfound
      exact List.find?_eq_none.mp hfind handle hm hkey

-- Among the patterns the list has the order of the store, and the exact plans before them are
-- passed over.
theorem Grouped.find?_pattern (h : Grouped added store) (point : Point)
    (globalWindow localWindow : Int64) :
    (store.handles.find? fun handle =>
        !handle.plan.isExact && handle.plan.asksFor point globalWindow localWindow) =
      (store.patterns.find? (·.accepts point globalWindow localWindow)).map (·.handle) := by
  have hexact : ∀ handle ∈ (store.exact.entries.mergeSort fun a b => a.1 ≤ b.1).map (·.2),
      ¬ (!handle.plan.isExact && handle.plan.asksFor point globalWindow localWindow) = true := by
    intro handle hm
    obtain ⟨entry, hentry, rfl⟩ := List.mem_map.mp hm
    have hfound := Table.get?_of_mem_entries (List.mem_mergeSort.mp hentry)
    simp [(h.kind_of_exact hfound).1]
  have hpattern : ∀ pattern ∈ store.patterns,
      (!pattern.handle.plan.isExact &&
        pattern.handle.plan.asksFor point globalWindow localWindow) =
        pattern.accepts point globalWindow localWindow := by
    intro pattern hm
    rw [h.kind_of_pattern hm, (h.compiled pattern hm).accepts_eq]
    rfl
  have hsame := congrArg List.head? (List.filter_congr hpattern)
  rw [List.head?_filter, List.head?_filter] at hsame
  rw [handles, List.find?_append, List.find?_eq_none.mpr hexact, Option.none_or, List.find?_map,
    ← hsame]
  rfl

end

-- After any requests, whether they were accepted, merged or refused, a point is looked up with the
-- same result as by going through the listed plans. No two exact plans on the list have one key,
-- and the patterns stand on it in the order in which their keys first came.
theorem lookup_scans_plans (limit : RegexLimit) (requests : List Request) (point : Point)
    (globalWindow localWindow : Int64) :
    let accepted := (serveAll limit requests).1
    let store := (serveAll limit requests).2
    store.find? point globalWindow localWindow =
        scan store.handles point globalWindow localWindow ∧
      store.plans = store.handles.map (·.plan) ∧
      (∀ first ∈ store.handles, ∀ second ∈ store.handles, first.plan.isExact = true →
        second.plan.isExact = true → first.plan.identityKey = second.plan.identityKey →
          first = second) ∧
      (store.handles.filter (!·.plan.isExact)).map (·.plan.identityKey) =
        TrapPlan.keysOf false accepted := by
  intro accepted store
  obtain ⟨hgrouped, hkeyed⟩ := serveAll_holds limit requests
  refine ⟨?_, rfl, fun first hfirst second hsecond hexact hexact' hkey => ?_, ?_⟩
  · rw [scan, hgrouped.find?_exact, hgrouped.find?_pattern]
    rfl
  · have hfound := hgrouped.get?_exact_iff.mpr ⟨hfirst, hexact, hkey⟩
    have hfound' := hgrouped.get?_exact_iff.mpr ⟨hsecond, hexact', rfl⟩
    exact Option.some.inj (hfound.symm.trans hfound')
  · have horder := congrArg (fun listed => (listed.filter (!·.1)).map Prod.snd)
      (hkeyed.order hgrouped)
    simpa [List.filter_append, List.filter_map, Function.comp_def] using horder

end PlanStore

end DelayInjection
