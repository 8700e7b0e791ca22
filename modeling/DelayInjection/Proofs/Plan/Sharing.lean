import DelayInjection.Proofs.Plan.Memory

-- What can be seen of plans that a store and kept handles share in memory is what is seen of a
-- store that makes a new version at every merge.

namespace DelayInjection

-- What is seen through a handle: the plan of its version, with the count of it as a word.
def PlanStore.seen (store : PlanStore) (handle : PlanHandle) : TrapPlan :=
  { handle.plan with injections := UInt32.ofNat (store.injectionsOf handle) }

theorem PlanStore.acceptsPoint_seen (store : PlanStore) (handle : PlanHandle) (point : Point)
    (globalWindow localWindow : Int64) :
    (store.seen handle).acceptsPoint point globalWindow localWindow =
      handle.plan.acceptsPoint point globalWindow localWindow := rfl

-- A stored pattern whose plan is in the cell that its counter names.
def PatternPlan.inCell (cellOf : Nat → Nat) (pattern : PatternPlan) : PatternCell where
  cell := cellOf pattern.handle.counter
  callee := pattern.callee
  caller := pattern.caller

-- A memory holds the versions that can still be used, each in a cell of its own.
structure PlanMemory.Tracks (cellOf : Nat → Nat) (memory : PlanMemory) (state : KeptPlans) :
    Prop where
  exact : memory.exact = state.store.exact.mapValues fun handle => cellOf handle.counter
  patterns : memory.patterns = state.store.patterns.map (·.inCell cellOf)
  patternIndex : memory.patternIndex = state.store.patternIndex
  kept : memory.kept = state.kept.map fun handle => cellOf handle.counter
  seen : ∀ handle ∈ state.known, memory.cells (cellOf handle.counter) = state.store.seen handle
  used : ∀ handle ∈ state.known, cellOf handle.counter < memory.used
  apart : ∀ first ∈ state.known, ∀ second ∈ state.known,
    cellOf first.counter = cellOf second.counter → first = second

namespace PlanMemory

section

variable {limit : RegexLimit} {cellOf : Nat → Nat} {memory : PlanMemory} {state : KeptPlans}
  {handle : PlanHandle} {plan : TrapPlan} {operation : PlanOperation}

theorem tracks_empty : Tracks id {} {} where
  exact := rfl
  patterns := rfl
  patternIndex := rfl
  kept := rfl
  seen handle hm := by
    rw [KeptPlans.known_empty] at hm
    cases hm
  used handle hm := by
    rw [KeptPlans.known_empty] at hm
    cases hm
  apart handle hm := by
    rw [KeptPlans.known_empty] at hm
    cases hm

theorem Tracks.listed (h : Tracks cellOf memory state) :
    memory.listed = state.store.handles.map fun handle => cellOf handle.counter := by
  have hsorted : memory.exact.entries.mergeSort (fun a b => a.1 ≤ b.1) =
      (state.store.exact.entries.mergeSort fun a b => a.1 ≤ b.1).map fun entry =>
        (entry.1, cellOf entry.2.counter) := by
    rw [h.exact]
    exact (List.map_mergeSort (f := fun entry : String × PlanHandle =>
      (entry.1, cellOf entry.2.counter)) fun _ _ _ _ => rfl).symm
  rw [PlanMemory.listed, hsorted, h.patterns, PlanStore.handles, List.map_append, List.map_map,
    List.map_map, List.map_map, List.map_map]
  rfl

theorem Tracks.find? (h : Tracks cellOf memory state) (point : Point)
    (globalWindow localWindow : Int64) :
    memory.find? point globalWindow localWindow =
      (state.store.find? point globalWindow localWindow).map fun handle =>
        cellOf handle.counter := by
  unfold PlanMemory.find? PlanStore.find?
  rw [h.exact, Table.get?_mapValues]
  cases hfound : state.store.exact.get?
      (TrapPlan.keyOf point.callee point.caller point.offset) with
  | some handle =>
      have hm := KeptPlans.mem_known_of_exact hfound
      simp only [Option.map_some, h.seen handle hm, PlanStore.acceptsPoint_seen]
      split <;> rfl
  | none =>
      have haccepts : ∀ pattern ∈ state.store.patterns,
          memory.accepts (pattern.inCell cellOf) point globalWindow localWindow =
            pattern.accepts point globalWindow localWindow := by
        intro pattern hm
        have hseen := h.seen pattern.handle (KeptPlans.mem_known_of_pattern hm)
        simp only [PlanMemory.accepts, PatternPlan.accepts, PatternPlan.inCell, hseen]
        rfl
      have hsame := congrArg List.head? (List.filter_congr haccepts)
      rw [List.head?_filter, List.head?_filter] at hsame
      rw [h.patterns, Option.map_none, List.find?_map]
      simp only [Function.comp_def, Option.map_map]
      rw [hsame]
      rfl

theorem Tracks.ask? (h : Tracks cellOf memory state) (query : PlanQuery) :
    memory.ask? query = (state.store.ask? query).map fun handle => cellOf handle.counter := by
  cases query with
  | listed index => rw [PlanMemory.ask?, h.listed, List.getElem?_map, PlanStore.ask?]
  | found point globalWindow localWindow => exact h.find? point globalWindow localWindow

theorem Tracks.taken? (h : Tracks cellOf memory state) (operation : PlanOperation) :
    memory.taken? operation =
      (state.taken? operation).map fun handle => cellOf handle.counter := by
  cases operation with
  | keep query => exact h.ask? query
  | _ => rfl

theorem Tracks.recorded? (h : Tracks cellOf memory state) (operation : PlanOperation) :
    memory.recorded? operation =
      (state.recorded? operation).map fun handle => cellOf handle.counter := by
  cases operation with
  | record query => exact h.ask? query
  | recordKept index =>
      rw [PlanMemory.recorded?, h.kept, List.getElem?_map, KeptPlans.recorded?]
  | _ => rfl

-- A handle of a stored plan can be kept.
theorem Tracks.keep (h : Tracks cellOf memory state) {handle? : Option PlanHandle}
    (hhandle : ∀ handle ∈ handle?, handle ∈ state.store.handles) :
    Tracks cellOf
      { memory with
        kept := memory.kept ++ (handle?.map fun handle => cellOf handle.counter).toList }
      { state with kept := state.kept ++ handle?.toList } := by
  have hknown : ∀ handle ∈ (state.kept ++ handle?.toList) ++ state.store.handles,
      handle ∈ state.known := by
    intro handle hm
    rcases List.mem_append.mp hm with hm | hm
    · rcases List.mem_append.mp hm with hm | hm
      · exact List.mem_append_left _ hm
      · exact List.mem_append_right _ (hhandle handle (Option.mem_toList.mp hm))
    · exact List.mem_append_right _ hm
  refine ⟨h.exact, h.patterns, h.patternIndex, ?_,
    fun handle hm => h.seen handle (hknown handle hm),
    fun handle hm => h.used handle (hknown handle hm),
    fun first hfirst second hsecond => h.apart first (hknown first hfirst) second
      (hknown second hsecond)⟩
  rw [List.map_append, ← h.kept]
  cases handle? <;> rfl

-- An injection is counted in the cell of its version alone.
theorem Tracks.recordInjection (h : Tracks cellOf memory state) (hsound : state.Sound)
    (hm : handle ∈ state.known) :
    Tracks cellOf (memory.recordInjection (cellOf handle.counter))
      { state with store := state.store.recordInjection handle } := by
  refine ⟨h.exact, h.patterns, h.patternIndex, h.kept, fun other hother => ?_, h.used, h.apart⟩
  have hcount : (state.store.recordInjection handle).injectionsOf other =
      state.store.injectionsOf other + if handle.counter = other.counter then 1 else 0 :=
    PlanStore.countOf_recordInjection state.store handle other.counter
  by_cases hsame : other = handle
  · subst hsame
    rw [if_pos rfl] at hcount
    simp only [PlanMemory.recordInjection, write, Function.update_self, PlanStore.seen, hcount,
      h.seen other hm, UInt32.ofNat_add]
    rfl
  · have hcell : cellOf other.counter ≠ cellOf handle.counter := fun heq =>
      hsame (h.apart other hother handle hm heq)
    have hcounter : handle.counter ≠ other.counter := fun heq =>
      hsame (hsound.version other hother handle hm heq.symm)
    rw [if_neg hcounter, Nat.add_zero] at hcount
    simp only [PlanMemory.recordInjection, write, Function.update_of_ne hcell, PlanStore.seen,
      hcount]
    exact h.seen other hother

-- What is known after an addition is the new version, and what was known before unless it was
-- known only as the host.
theorem known_of_add {next : PlanStore} (hsound : state.Sound)
    (hadd : state.store.add limit plan = (none, next))
    (hm : handle ∈ ({ state with store := next } : KeptPlans).known) :
    handle = state.store.versionOf (state.store.host? plan) plan ∨
      handle ∈ state.known ∧ (handle ∈ state.kept ∨ state.store.host? plan ≠ some handle) := by
  rcases List.mem_append.mp hm with hm | hm
  · exact .inr ⟨List.mem_append_left _ hm, .inl hm⟩
  · obtain ⟨exact, key, hstored⟩ := (hsound.indexed.add hadd).mem_handles_iff_storedAt.mp hm
    rw [PlanStore.storedAt_add hsound.indexed hadd] at hstored
    split at hstored
    · exact .inl (Option.some.inj hstored).symm
    · rename_i hgroup
      refine .inr ⟨KeptPlans.mem_known_of_storedAt hstored, .inr fun hhost => ?_⟩
      -- the host is stored for the group of the plan, and for no other
      obtain ⟨rfl, rfl⟩ := TrapPlan.inGroup_iff.mp (hsound.grouped _ _ _ hstored)
      obtain ⟨hexact, hkey⟩ := TrapPlan.inGroup_iff.mp (hsound.grouped _ _ _ hhost)
      rw [hexact, hkey] at hgroup
      exact hgroup plan.inGroup_self

-- What a plan is compiled to does not depend on where the plan is kept.
theorem compile_inCell (limit : RegexLimit) (plan : TrapPlan) (counter : Nat)
    (names : Nat → Nat) :
    PatternCell.compile limit plan (names counter) =
      (PatternPlan.compile limit { plan, counter }).map (·.inCell names) := by
  simp only [PatternCell.compile, PatternPlan.compile]
  cases Pattern.compile? limit plan.callee with
  | none => rfl
  | some callee =>
      cases plan.caller with
      | none => rfl
      | some text =>
          simp only
          cases Pattern.compile? limit text <;> rfl

-- The cell for the version that an addition makes.
def placeOf (cellOf : Nat → Nat) (memory : PlanMemory) (state : KeptPlans) (plan : TrapPlan) :
    Nat × PlanMemory :=
  memory.place ((state.store.host? plan).map fun host => cellOf host.counter) plan

def namesOf (cellOf : Nat → Nat) (memory : PlanMemory) (state : KeptPlans) (plan : TrapPlan) :
    Nat → Nat :=
  Function.update cellOf state.store.nextCounter (placeOf cellOf memory state plan).1

theorem namesOf_known (hsound : state.Sound) (hm : handle ∈ state.known) :
    namesOf cellOf memory state plan handle.counter = cellOf handle.counter :=
  Function.update_of_ne (Nat.ne_of_lt (hsound.started handle hm)) _ _

theorem Tracks.place_content (h : Tracks cellOf memory state) (hsound : state.Sound)
    {next : PlanStore} (hadd : state.store.add limit plan = (none, next)) :
    (placeOf cellOf memory state plan).2.cells (placeOf cellOf memory state plan).1 =
      next.seen (state.store.versionOf (state.store.host? plan) plan) := by
  have hcount : next.injectionsOf (state.store.versionOf (state.store.host? plan) plan) =
      state.store.startCount (state.store.host? plan) plan :=
    PlanStore.countOf_add hsound.indexed hadd
  rw [placeOf, place_eq]
  simp only [Function.update_self, PlanStore.seen, hcount]
  cases hhost : state.store.host? plan with
  | none =>
      simp only [contentFor, Option.map_none, Option.elim_none, PlanStore.startCount,
        PlanStore.versionOf, UInt32.ofNat_toNat]
  | some host =>
      simp only [contentFor, Option.map_some, Option.elim_some,
        h.seen host (KeptPlans.mem_known_of_host? hhost)]
      rfl

theorem Tracks.place_ne (h : Tracks cellOf memory state) (hm : handle ∈ state.known)
    (hkept : handle ∈ state.kept ∨ state.store.host? plan ≠ some handle) :
    cellOf handle.counter ≠ (placeOf cellOf memory state plan).1 := by
  refine PlanMemory.place_ne (h.used handle hm) (fun cell hcell => ?_) ?_
  · obtain ⟨host, hfound, rfl⟩ := Option.map_eq_some_iff.mp hcell
    rw [h.listed]
    exact List.mem_map_of_mem (PlanStore.mem_handles_of_storedAt hfound)
  · rcases hkept with hkept | hne
    · rw [h.kept]
      exact .inl (List.mem_map_of_mem hkept)
    · refine .inr fun hcell => ?_
      obtain ⟨host, hfound, hsame⟩ := Option.map_eq_some_iff.mp hcell
      have hsame := h.apart host (KeptPlans.mem_known_of_host? hfound) handle hm hsame
      exact hne (hsame ▸ hfound)

-- The new version is in the cell that was found for it, and no other one is.
theorem Tracks.names_add (h : Tracks cellOf memory state) (hsound : state.Sound) {next : PlanStore}
    (hadd : state.store.add limit plan = (none, next))
    (hm : handle ∈ ({ state with store := next } : KeptPlans).known) :
    (handle = state.store.versionOf (state.store.host? plan) plan ∧
        namesOf cellOf memory state plan handle.counter =
          (placeOf cellOf memory state plan).1) ∨
      (handle ∈ state.known ∧
        namesOf cellOf memory state plan handle.counter = cellOf handle.counter ∧
        cellOf handle.counter ≠ (placeOf cellOf memory state plan).1) := by
  rcases known_of_add hsound hadd hm with rfl | ⟨hm, hkept⟩
  · exact .inl ⟨rfl, Function.update_self ..⟩
  · exact .inr ⟨hm, namesOf_known hsound hm, h.place_ne hm hkept⟩

theorem Tracks.used_place (h : Tracks cellOf memory state) (plan : TrapPlan) :
    memory.used ≤ (placeOf cellOf memory state plan).2.used ∧
      (placeOf cellOf memory state plan).1 < (placeOf cellOf memory state plan).2.used := by
  refine PlanMemory.used_place memory _ plan fun cell hcell => ?_
  obtain ⟨host, hfound, rfl⟩ := Option.map_eq_some_iff.mp hcell
  exact h.used host (KeptPlans.mem_known_of_host? hfound)

-- An addition is tracked if the tables of the memory follow those of the store.
theorem Tracks.of_place (h : Tracks cellOf memory state) (hsound : state.Sound) {next : PlanStore}
    (hadd : state.store.add limit plan = (none, next)) {exact : Table String Nat}
    {patterns : List PatternCell}
    (hexact : exact = next.exact.mapValues fun handle =>
      namesOf cellOf memory state plan handle.counter)
    (hpatterns : patterns = next.patterns.map (·.inCell (namesOf cellOf memory state plan))) :
    Tracks (namesOf cellOf memory state plan)
      { (placeOf cellOf memory state plan).2 with
        exact, patterns, patternIndex := next.patternIndex }
      { state with store := next } := by
  obtain ⟨hle, hlt⟩ := h.used_place plan
  refine ⟨hexact, hpatterns, rfl, ?_, fun handle hm => ?_, fun handle hm => ?_,
    fun first hfirst second hsecond hsame => ?_⟩
  · simp only [placeOf, kept_place, h.kept]
    apply List.map_congr_left
    intro handle hm
    rw [namesOf_known hsound (List.mem_append_left _ hm)]
  · rcases h.names_add hsound hadd hm with ⟨rfl, hname⟩ | ⟨hm, hname, hne⟩
    · rw [hname]
      exact h.place_content hsound hadd
    · have hcount : next.injectionsOf handle = state.store.injectionsOf handle := by
        unfold PlanStore.injectionsOf
        rw [PlanStore.get?_injections_add hsound.indexed hadd
          (Nat.ne_of_lt (hsound.started handle hm))]
      have hcells : (placeOf cellOf memory state plan).2.cells (cellOf handle.counter) =
          memory.cells (cellOf handle.counter) := by
        rw [placeOf, place_eq]
        exact Function.update_of_ne hne _ _
      rw [hname, PlanStore.seen, hcount]
      exact hcells.trans (h.seen handle hm)
  · rcases h.names_add hsound hadd hm with ⟨rfl, hname⟩ | ⟨hm, hname, -⟩
    · rw [hname]
      exact hlt
    · rw [hname]
      exact (h.used handle hm).trans_le hle
  · rcases h.names_add hsound hadd hfirst with ⟨rfl, hname⟩ | ⟨hfirst, hname, hne⟩
    · rcases h.names_add hsound hadd hsecond with ⟨rfl, -⟩ | ⟨hsecond, hname', hne⟩
      · rfl
      · exact absurd (hname'.symm.trans (hsame.symm.trans hname)) hne
    · rcases h.names_add hsound hadd hsecond with ⟨rfl, hname'⟩ | ⟨hsecond, hname', -⟩
      · exact absurd (hname.symm.trans (hsame.trans hname')) hne
      · exact h.apart first hfirst second hsecond (hname.symm.trans (hsame.trans hname'))

-- Tables of plans that stay where they are.
theorem Tracks.exact_names (h : Tracks cellOf memory state) (hsound : state.Sound)
    (plan : TrapPlan) : memory.exact = state.store.exact.mapValues fun handle =>
      namesOf cellOf memory state plan handle.counter := by
  rw [h.exact]
  apply Table.mapValues_congr
  intro entry hm
  rw [namesOf_known hsound (KeptPlans.mem_known_of_exact (Table.get?_of_mem_entries hm))]

theorem Tracks.pattern_names (h : Tracks cellOf memory state) (hsound : state.Sound)
    (plan : TrapPlan) :
    memory.patterns =
      state.store.patterns.map (·.inCell (namesOf cellOf memory state plan)) := by
  rw [h.patterns]
  apply List.map_congr_left
  intro pattern hm
  rw [PatternPlan.inCell, PatternPlan.inCell,
    namesOf_known hsound (KeptPlans.mem_known_of_pattern hm)]

-- What the tables of a memory are after an addition, if they follow those of the store.
def followed (cellOf : Nat → Nat) (memory : PlanMemory) (state : KeptPlans) (plan : TrapPlan)
    (next : PlanStore) : PlanMemory :=
  { (placeOf cellOf memory state plan).2 with
    exact := next.exact.mapValues fun handle => namesOf cellOf memory state plan handle.counter
    patterns := next.patterns.map (·.inCell (namesOf cellOf memory state plan))
    patternIndex := next.patternIndex }

theorem Tracks.add_exact (h : Tracks cellOf memory state) (hsound : state.Sound)
    (hexact : plan.isExact = true) {next : PlanStore}
    (hadd : state.store.add limit plan = (none, next)) :
    memory.add limit plan = (none, followed cellOf memory state plan next) := by
  have hfound : memory.exact.get? plan.identityKey =
      (state.store.host? plan).map fun host => cellOf host.counter := by
    rw [h.exact, Table.get?_mapValues, PlanStore.host?, if_pos hexact]
  have hname : namesOf cellOf memory state plan state.store.nextCounter =
      (placeOf cellOf memory state plan).1 := Function.update_self ..
  rw [PlanStore.add, if_pos hexact, PlanStore.addExact_eq] at hadd
  obtain rfl := (Prod.mk.inj hadd).2
  rw [PlanMemory.add, if_pos hexact, addExact, hfound, followed]
  simp only [PlanStore.startCounter, Table.mapValues_insert, ← h.exact_names hsound plan,
    ← h.pattern_names hsound plan, ← h.patternIndex]
  rw [PlanStore.versionOf, hname, ← placeOf]
  simp only [placeOf, exact_place]
  rw [← patterns_place memory ((state.store.host? plan).map fun host => cellOf host.counter) plan,
    ← patternIndex_place memory ((state.store.host? plan).map fun host => cellOf host.counter) plan]

-- The pattern that a memory has under a key is that of the store.
theorem Tracks.pattern? (h : Tracks cellOf memory state) (key : String) :
    memory.pattern? key = (state.store.pattern? key).map (·.inCell cellOf) := by
  rw [PlanMemory.pattern?, PlanStore.pattern?, h.patterns, h.patternIndex]
  cases state.store.patternIndex.get? key with
  | none => rfl
  | some index => rw [Option.bind_some, Option.bind_some, List.getElem?_map]

-- A plan that is merged into a pattern.
theorem Tracks.add_merged (h : Tracks cellOf memory state) (hsound : state.Sound)
    (hexact : plan.isExact = false) {index : Nat}
    (hindex : state.store.patternIndex.get? plan.identityKey = some index) :
    memory.add limit plan =
      (none, followed cellOf memory state plan (state.store.mergePattern index plan)) := by
  have hkind : ¬plan.isExact = true := by simp [hexact]
  have hname : namesOf cellOf memory state plan state.store.nextCounter =
      (placeOf cellOf memory state plan).1 := Function.update_self ..
  obtain ⟨found, hat, -, hfound⟩ := hsound.indexed.pattern?_of_get? hindex
  have hplace : placeOf cellOf memory state plan =
      memory.place (some (found.inCell cellOf).cell) plan := by
    rw [placeOf, PlanStore.host?, if_neg hkind, hfound]
    rfl
  have hcell : memory.patterns[index]? = some (found.inCell cellOf) := by
    rw [h.patterns, List.getElem?_map, hat, Option.map_some]
  have hmerged : ∀ merged : TrapPlan,
      PatternPlan.inCell (namesOf cellOf memory state plan)
          { found with handle := { plan := merged, counter := state.store.nextCounter } } =
        { found.inCell cellOf with cell := (placeOf cellOf memory state plan).1 } := by
    intro merged
    rw [← hname]
    rfl
  rw [PlanMemory.add, if_neg hkind, addPattern, h.patternIndex, hindex]
  simp only [hcell, followed, PlanStore.mergePattern, hat, PlanStore.mergeHandle,
    PlanStore.newHandle, List.map_set, ← h.exact_names hsound plan, ← h.pattern_names hsound plan,
    ← h.patternIndex, hmerged]
  simp only [hplace, exact_place, patterns_place, patternIndex_place]

-- A pattern that is compiled, and stored behind the others unless it is refused.
theorem Tracks.add_compiled (h : Tracks cellOf memory state) (hsound : state.Sound)
    (hexact : plan.isExact = false)
    (hindex : state.store.patternIndex.get? plan.identityKey = none) :
    memory.add limit plan =
      match state.store.add limit plan with
      | (some text, _) => (some text, memory)
      | (none, next) => (none, followed cellOf memory state plan next) := by
  have hkind : ¬plan.isExact = true := by simp [hexact]
  have hname : namesOf cellOf memory state plan state.store.nextCounter =
      (placeOf cellOf memory state plan).1 := Function.update_self ..
  have hplace : placeOf cellOf memory state plan = memory.place none plan := by
    rw [placeOf, PlanStore.host?, if_neg hkind, PlanStore.pattern?_of_get?_eq_none hindex]
    rfl
  rw [PlanMemory.add, if_neg hkind, PlanStore.add, if_neg hkind, addPattern, PlanStore.addPattern,
    h.patternIndex, hindex]
  simp only [← hplace, ← hname, compile_inCell, PlanStore.newHandle]
  cases PatternPlan.compile limit { plan, counter := state.store.nextCounter } with
  | error text => rfl
  | ok pattern =>
      simp only [Except.map, followed, List.map_append, List.map_cons, List.map_nil,
        ← h.exact_names hsound plan, ← h.pattern_names hsound plan, ← h.patternIndex]
      simp only [hplace, exact_place, patterns_place, patternIndex_place]
      rw [h.patterns, List.length_map]

theorem Tracks.add (h : Tracks cellOf memory state) (hsound : state.Sound) {next : PlanStore}
    (hadd : state.store.add limit plan = (none, next)) :
    ∃ after, memory.add limit plan = (none, after) ∧
      Tracks (namesOf cellOf memory state plan) after { state with store := next } := by
  refine ⟨_, ?_, h.of_place hsound hadd rfl rfl⟩
  cases hexact : plan.isExact with
  | true => exact h.add_exact hsound hexact hadd
  | false =>
      cases hindex : state.store.patternIndex.get? plan.identityKey with
      | none => rw [h.add_compiled hsound hexact hindex, hadd]; rfl
      | some index =>
          rw [PlanStore.add, if_neg (by simp [hexact]), PlanStore.addPattern, hindex] at hadd
          obtain rfl := (Prod.mk.inj hadd).2
          exact h.add_merged hsound hexact hindex

-- A memory refuses the plans that the store refuses.
theorem Tracks.add_refused (h : Tracks cellOf memory state) (hsound : state.Sound) {text : String}
    {next : PlanStore} (hadd : state.store.add limit plan = (some text, next)) :
    memory.add limit plan = (some text, memory) := by
  cases hexact : plan.isExact with
  | true =>
      rw [PlanStore.add, if_pos hexact] at hadd
      cases (Prod.mk.inj hadd).1
  | false =>
      cases hindex : state.store.patternIndex.get? plan.identityKey with
      | none => rw [h.add_compiled hsound hexact hindex, hadd]
      | some index =>
          rw [PlanStore.add, if_neg (by simp [hexact]), PlanStore.addPattern, hindex] at hadd
          cases (Prod.mk.inj hadd).1

theorem Tracks.record (h : Tracks cellOf memory state) (hsound : state.Sound)
    (operation : PlanOperation) :
    Tracks cellOf ((memory.recorded? operation).elim memory memory.recordInjection)
      { state with
        store := (state.recorded? operation).elim state.store state.store.recordInjection } := by
  rw [h.recorded? operation]
  cases hrecorded : state.recorded? operation with
  | none => exact h
  | some handle => exact h.recordInjection hsound (KeptPlans.mem_known_of_recorded? hrecorded)

-- Names of kept handles stay as they are.
theorem Tracks.perform (h : Tracks cellOf memory state) (hsound : state.Sound)
    (operation : PlanOperation) :
    ∃ names, Tracks names (memory.perform limit operation) (state.perform limit operation) ∧
      ∀ handle ∈ state.kept, names handle.counter = cellOf handle.counter := by
  have hnone : ∀ store : PlanStore, ∀ handle ∈ (none : Option PlanHandle), handle ∈ store.handles :=
    fun _ _ hm => nomatch hm
  cases operation with
  | add plan =>
      cases hadd : state.store.add limit plan with
      | mk refused? next =>
          cases refused? with
          | some text =>
              have hkept := h.keep (hnone state.store)
              simp only [PlanMemory.perform, KeptPlans.perform, h.add_refused hsound hadd, hadd,
                PlanStore.add_refused hadd]
              exact ⟨cellOf, hkept, fun _ _ => rfl⟩
          | none =>
              obtain ⟨after, hafter, htracks⟩ := h.add hsound hadd
              have hkept := htracks.keep (hnone next)
              simp only [PlanMemory.perform, KeptPlans.perform, hafter, hadd]
              exact ⟨_, hkept, fun handle hm => namesOf_known hsound (List.mem_append_left _ hm)⟩
  | keep query =>
      have hkept := h.keep fun handle (hm : state.taken? (.keep query) = some handle) =>
        KeptPlans.mem_handles_of_taken? hm
      rw [← h.taken? (.keep query)] at hkept
      exact ⟨cellOf, hkept, fun _ _ => rfl⟩
  | record query =>
      exact ⟨cellOf, (h.record hsound (.record query)).keep (hnone _), fun _ _ => rfl⟩
  | recordKept index =>
      exact ⟨cellOf, (h.record hsound (.recordKept index)).keep (hnone _), fun _ _ => rfl⟩

theorem Tracks.run (h : Tracks cellOf memory state) (hsound : state.Sound)
    (operations : List PlanOperation) :
    ∃ names, Tracks names (memory.run limit operations) (state.run limit operations) ∧
      ∀ handle ∈ state.kept, names handle.counter = cellOf handle.counter := by
  induction operations generalizing memory state cellOf with
  | nil => exact ⟨cellOf, h, fun _ _ => rfl⟩
  | cons operation rest ih =>
      obtain ⟨next, hnext, hsame⟩ := h.perform hsound operation
      obtain ⟨names, hlast, hnames⟩ := ih hnext (hsound.perform operation)
      refine ⟨names, hlast, fun handle hm => ?_⟩
      rw [hnames handle (List.mem_append_left _ hm), hsame handle hm]

-- What is in the cell of a kept handle is what is seen through the handle, now and later.
theorem Tracks.kept_run (h : Tracks cellOf memory state) (hsound : state.Sound)
    (operations : List PlanOperation) {cell : Nat} (hm : cell ∈ memory.kept) :
    ∃ handle ∈ state.kept, memory.cells cell = state.store.seen handle ∧
      (memory.run limit operations).cells cell =
        (state.run limit operations).store.seen handle := by
  obtain ⟨names, hlast, hnames⟩ := h.run hsound operations
  rw [h.kept] at hm
  obtain ⟨handle, hkept, rfl⟩ := List.mem_map.mp hm
  refine ⟨handle, hkept, h.seen handle (List.mem_append_left _ hkept), ?_⟩
  rw [← hnames handle hkept]
  exact hlast.seen handle (List.mem_append_left _ ((state.kept_run limit operations).subset hkept))

end

-- The cell of the stored plan that a plan is merged into.
def host? (memory : PlanMemory) (plan : TrapPlan) : Option Nat :=
  if plan.isExact then memory.exact.get? plan.identityKey
  else (memory.pattern? plan.identityKey).map (·.cell)

-- What is seen of a memory is what is seen of a store: the kept plans, the answers to all queries,
-- and which plans are refused.
structure Shows (limit : RegexLimit) (memory : PlanMemory) (state : KeptPlans) : Prop where
  kept : memory.kept.map memory.cells = state.kept.map state.store.seen
  asked : ∀ query, (memory.ask? query).map memory.cells =
    (state.store.ask? query).map state.store.seen
  refused : ∀ plan, (memory.add limit plan).1 = (state.store.add limit plan).1

section

variable {limit : RegexLimit} {cellOf : Nat → Nat} {memory : PlanMemory} {state : KeptPlans}
  {plan : TrapPlan}

theorem Tracks.shows (h : Tracks cellOf memory state) (hsound : state.Sound)
    (limit : RegexLimit) : memory.Shows limit state where
  kept := by
    rw [h.kept, List.map_map]
    exact List.map_congr_left fun handle hm => h.seen handle (List.mem_append_left _ hm)
  asked query := by
    rw [h.ask? query, Option.map_map]
    cases hasked : state.store.ask? query with
    | none => rfl
    | some handle =>
        exact congrArg some (h.seen handle
          (List.mem_append_right _ (PlanStore.mem_handles_of_ask? hasked)))
  refused plan := by
    cases hadd : state.store.add limit plan with
    | mk refused? next =>
        cases refused? with
        | some text => rw [h.add_refused hsound hadd]
        | none =>
            obtain ⟨after, hafter, -⟩ := h.add hsound hadd
            rw [hafter]

theorem Tracks.host? (h : Tracks cellOf memory state) (plan : TrapPlan) :
    memory.host? plan = (state.store.host? plan).map fun host => cellOf host.counter := by
  unfold PlanMemory.host? PlanStore.host?
  split
  · rw [h.exact, Table.get?_mapValues]
  · rw [h.pattern?, Option.map_map, Option.map_map]
    rfl

-- A merged plan is in a cell to which no kept handle refers, with the count of its host, and the
-- cells of kept handles stay as they are.
theorem Tracks.merge (h : Tracks cellOf memory state) (hsound : state.Sound)
    (limit : RegexLimit) {host : Nat} (hhost : memory.host? plan = some host) :
    ∃ next merged, memory.add limit plan = (none, next) ∧ next.host? plan = some merged ∧
      merged ∉ memory.kept ∧ next.cells merged = (memory.cells host).merge plan ∧
      ∀ cell ∈ memory.kept, next.cells cell = memory.cells cell := by
  rw [h.host? plan] at hhost
  obtain ⟨found, hfound, rfl⟩ := Option.map_eq_some_iff.mp hhost
  obtain ⟨after, version, hadd, hversion, hplan, hcount, hother⟩ := hsound.merge limit hfound
  obtain ⟨next, hnext, htracks⟩ := h.add hsound hadd
  have hfound : found ∈ state.known := KeptPlans.mem_known_of_host? hfound
  have hstored : version ∈ ({ state with store := after } : KeptPlans).known :=
    KeptPlans.mem_known_of_host? hversion
  -- a kept handle stays with its cell, and its version is not the new one
  have hkept : ∀ cell ∈ memory.kept, ∃ handle ∈ state.known,
      handle ∈ ({ state with store := after } : KeptPlans).known ∧
        cell = cellOf handle.counter ∧
        cell = namesOf cellOf memory state plan handle.counter := by
    intro cell hm
    rw [h.kept] at hm
    obtain ⟨handle, hkept, rfl⟩ := List.mem_map.mp hm
    have hknown : handle ∈ state.known := List.mem_append_left _ hkept
    exact ⟨handle, hknown, List.mem_append_left _ hkept, rfl, (namesOf_known hsound hknown).symm⟩
  refine ⟨next, namesOf cellOf memory state plan version.counter, hnext,
    by rw [htracks.host?, hversion, Option.map_some], fun hm => ?_, ?_, fun cell hm => ?_⟩
  · obtain ⟨handle, hknown, hafter, -, hname⟩ := hkept _ hm
    have hsame := htracks.apart version hstored handle hafter hname
    exact (hother handle hknown).1 (congrArg PlanHandle.counter hsame.symm)
  · rw [htracks.seen version hstored, h.seen found hfound]
    simp only [PlanStore.seen, hplan, hcount]
    rfl
  · obtain ⟨handle, hknown, hafter, hcell, hname⟩ := hkept cell hm
    rw [hname, htracks.seen handle hafter, ← hname, hcell, h.seen handle hknown, PlanStore.seen,
      PlanStore.seen, (hother handle hknown).2]

end

-- Whatever is added, kept and recorded, a store whose handles share plans in memory shows what a
-- store of versions shows. The cell of a kept handle never changes but for the injections that are
-- recorded with its version. A merge puts the merged plan into a cell that no kept handle refers
-- to: a new version, which goes on from the count of its host, while all counts that are known
-- stay. A counter counts every recorded injection of its one version once. Until a plan of its
-- group is added, a stored version stays: who takes a handle of the group, or asks for it, gets
-- this version.
theorem kept_handles_are_snapshots (limit : RegexLimit) (before after : List PlanOperation) :
    let first := KeptPlans.run limit {} before
    let last := first.run limit after
    let memory := PlanMemory.run limit {} before
    let later := memory.run limit after
    later.Shows limit last ∧
      (∀ cell ∈ memory.kept, ∃ handle ∈ first.kept,
        memory.cells cell = first.store.seen handle ∧
        later.cells cell =
          { memory.cells cell with
            injections := (memory.cells cell).injections +
              UInt32.ofNat (KeptPlans.recordings limit handle.counter first after) }) ∧
      (∀ plan host, memory.host? plan = some host →
        ∃ next merged, memory.add limit plan = (none, next) ∧ next.host? plan = some merged ∧
          merged ∉ memory.kept ∧ next.cells merged = (memory.cells host).merge plan ∧
          ∀ cell ∈ memory.kept, next.cells cell = memory.cells cell) ∧
      (∀ plan host, first.store.host? plan = some host →
        ∃ next merged, first.store.add limit plan = (none, next) ∧ next.host? plan = some merged ∧
          merged.plan = host.plan.merge plan ∧
          next.injectionsOf merged = first.store.injectionsOf host ∧
          ∀ handle ∈ first.known, handle.counter ≠ merged.counter ∧
            next.injectionsOf handle = first.store.injectionsOf handle) ∧
      (∀ handle ∈ first.known,
        last.store.injectionsOf handle =
          first.store.injectionsOf handle + KeptPlans.recordings limit handle.counter first after ∧
        ∀ other ∈ first.known, other.counter = handle.counter → other = handle) ∧
      first.kept <+: last.kept ∧
      ∀ handle ∈ first.store.handles,
        let inGroup := fun other : PlanHandle =>
          other.plan.inGroup handle.plan.isExact handle.plan.identityKey = true
        (∀ operation ∈ after,
          operation.addsTo handle.plan.isExact handle.plan.identityKey = false) →
        handle ∈ last.store.handles ∧
          (∀ other ∈ last.kept.drop first.kept.length, inGroup other → other = handle) ∧
          ∀ query other, last.store.ask? query = some other → inGroup other → other = handle := by
  intro first last memory later
  have hsound : first.Sound := KeptPlans.sound_empty.run before
  obtain ⟨cellOf, htracks, -⟩ := tracks_empty.run KeptPlans.sound_empty before
  obtain ⟨names, hlast, -⟩ := htracks.run hsound after
  have hcounts : ∀ handle ∈ first.known, last.store.injectionsOf handle =
      first.store.injectionsOf handle + KeptPlans.recordings limit handle.counter first after :=
    fun handle hm => KeptPlans.countOf_run hsound.indexed after (hsound.started handle hm)
  refine ⟨hlast.shows (hsound.run after) limit, fun cell hm => ?_,
    fun plan host => htracks.merge hsound limit, fun plan host => hsound.merge limit,
    fun handle hm => ⟨hcounts handle hm, fun other hother =>
      hsound.version other hother handle hm⟩, first.kept_run limit after, ?_⟩
  · obtain ⟨handle, hkept, hnow, hlater⟩ := htracks.kept_run hsound after hm
    refine ⟨handle, hkept, hnow, ?_⟩
    rw [hlater, hnow, PlanStore.seen, hcounts handle (List.mem_append_left _ hkept),
      UInt32.ofNat_add]
    rfl
  · intro handle hm inGroup hnone
    have hstored := hsound.storedAt_of_mem hm
    obtain ⟨hstays, taken, hkept, htaken⟩ := hsound.shared_run hstored hnone
    refine ⟨PlanStore.mem_handles_of_storedAt hstays, ?_, fun query other hasked => ?_⟩
    · rw [hkept, List.drop_left]
      exact htaken
    · exact (hsound.run after).eq_of_inGroup hstays (PlanStore.mem_handles_of_ask? hasked)

-- A plan is kept before another one is merged into it, and the merged plan after it.
namespace Sample

def before : List PlanOperation :=
  [.add PlanStore.Sample.early, .keep (.found (PlanStore.Sample.pointAt 3) 20 5), .recordKept 0,
    .add PlanStore.Sample.late]

def after : List PlanOperation :=
  [.keep (.listed 0), .recordKept 0, .recordKept 1, .record (.listed 0)]

end Sample

theorem kept_handles_are_snapshots_of_merge :
    let first := KeptPlans.run Pattern.Sample.limit {} Sample.before
    let last := first.run Pattern.Sample.limit Sample.after
    ∃ old new, first.kept = [old] ∧ first.store.handles = [new] ∧
      (∃ taken, last.kept = [old] ++ taken ∧ ∀ other ∈ taken, other = new) ∧
      last.store.injectionsOf old = 2 ∧ last.store.injectionsOf new = 3 := by
  intro first last
  obtain ⟨-, -, -, -, hcounts, hprefix, hshared⟩ :=
    kept_handles_are_snapshots Pattern.Sample.limit Sample.before Sample.after
  have hkept : first.kept.map (·.counter) = [0] := by decide +kernel
  have hlisted : first.store.handles.map (fun handle =>
      (handle.counter, handle.plan.isExact, handle.plan.identityKey)) =
        [(1, true, "Add;Main;1")] := by decide +kernel
  obtain ⟨old, hold, hzero⟩ := List.map_eq_singleton_iff.mp hkept
  obtain ⟨new, hnew, hone⟩ := List.map_eq_singleton_iff.mp hlisted
  simp only [Prod.mk.injEq] at hone
  obtain ⟨hone, hexact, hkey⟩ := hone
  have htaken : (last.kept.drop 1).all (·.plan.inGroup true "Add;Main;1") = true := by
    decide +kernel
  have hnone : ∀ operation ∈ Sample.after, operation.addsTo new.plan.isExact
      new.plan.identityKey = false := by simp [Sample.after, PlanOperation.addsTo]
  have hmold : old ∈ first.known := List.mem_append_left _ (hold ▸ List.mem_singleton_self old)
  have hmnew : new ∈ first.store.handles := hnew ▸ List.mem_singleton_self new
  refine ⟨old, new, hold, hnew, ⟨last.kept.drop 1, ?_, fun other hm => ?_⟩, ?_, ?_⟩
  · obtain ⟨taken, hlast⟩ := hprefix
    rw [← hold, ← hlast, hold]
    rfl
  · refine (hshared new hmnew fun operation hm => ?_).2.1 other (hold ▸ hm) ?_
    · exact hnone operation hm
    · rw [hexact, hkey]
      exact List.all_eq_true.mp htaken other hm
  · rw [(hcounts old hmold).1, PlanStore.injectionsOf, hzero]
    decide +kernel
  · rw [(hcounts new (List.mem_append_right _ hmnew)).1, PlanStore.injectionsOf, hone]
    decide +kernel

end PlanMemory

end DelayInjection
