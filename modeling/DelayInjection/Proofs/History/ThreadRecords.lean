import Mathlib.Data.List.Induction
import Mathlib.Data.Set.Card
import DelayInjection.History.ThreadRecords
import DelayInjection.Proofs.Table

-- What is recorded of the threads after any accesses, marks and clearings. A thread is stalled by
-- the blocker of the latest mark that selected it, unless it was cleared since. A mark changes the
-- threads that it selects and nothing else, in whatever order it visits their records.

namespace DelayInjection

namespace ThreadRecords

inductive Request where
  | setLast (point : Point)
  | mark (blocker : Point) (limit : TimeLimit)
  | clear (thread : ThreadId)

def serve (threads : ThreadRecords) : Request → ThreadRecords
  | .setLast point => threads.setLast point
  | .mark blocker limit => (threads.markBlockedNear blocker limit).2
  | .clear thread => threads.clearBlockedBy thread

def after (requests : List Request) : ThreadRecords := requests.foldl serve {}

def Request.pointOf? (thread : ThreadId) : Request → Option Point
  | setLast point => if point.thread = thread then some point else none
  | _ => none

-- The point of a thread that was set most recently.
def lastSet? (requests : List Request) (thread : ThreadId) : Option Point :=
  (requests.filterMap (·.pointOf? thread)).getLast?

-- The threads that a mark selects: those other than the blocker's whose last point is not farther
-- from it than the limit, whichever of the two came first.
def Selects (requests : List Request) (blocker : Point) (limit : TimeLimit) (thread : ThreadId) :
    Prop :=
  thread ≠ blocker.thread ∧ ∃ last, lastSet? requests thread = some last ∧
    ∀ longest, limit = some longest →
      last.time ≤ blocker.time + longest ∧ blocker.time ≤ last.time + longest

-- The requests that decide anew what stalls a thread.
def Touches (requests : List Request) (thread : ThreadId) : Request → Prop
  | .setLast _ => False
  | .mark blocker limit => Selects requests blocker limit thread
  | .clear cleared => cleared = thread

-- The latest mark that selected the thread is that of the blocker, and no request touched the
-- thread since.
def StalledBy (requests : List Request) (thread : ThreadId) (blocker : Point) : Prop :=
  ∃ before limit later, requests = before ++ .mark blocker limit :: later ∧
    Selects before blocker limit thread ∧
    ∀ front request back, later = front ++ request :: back →
      ¬ Touches (before ++ .mark blocker limit :: front) thread request

-- A mark comes to one record after another.
def visit (blocker : Point) (limit : TimeLimit) (state : Nat × ThreadRecords)
    (thread : ThreadId) : Nat × ThreadRecords :=
  match state.2.records.get? thread with
  | none => state
  | some record =>
      if isNear blocker limit thread record then
        (state.1 + 1,
          { records := state.2.records.insert thread { record with blockedBy := some blocker } })
      else state

section

variable (threads : ThreadRecords) (thread : ThreadId)

theorem record_setLast (point : Point) :
    (threads.setLast point).record thread =
      if point.thread = thread then { threads.record thread with last := some point }
      else threads.record thread := by
  simp only [record, setLast, Table.get?_insert]
  by_cases he : point.thread = thread
  · subst he
    simp
  · simp [he]

theorem record_clearBlockedBy (cleared : ThreadId) :
    (threads.clearBlockedBy cleared).record thread =
      if cleared = thread then { threads.record thread with blockedBy := none }
      else threads.record thread := by
  unfold clearBlockedBy
  cases hget : threads.records.get? cleared with
  | none =>
      by_cases he : cleared = thread
      · subst he
        simp [record, hget]
      · simp [he]
  | some found =>
      by_cases he : cleared = thread
      · subst he
        simp [record, hget]
      · simp [record, he, Table.get?_insert_of_ne]

theorem record_markBlockedNear (blocker : Point) (limit : TimeLimit) :
    (threads.markBlockedNear blocker limit).2.record thread =
      if isNear blocker limit thread (threads.record thread) then
        { threads.record thread with blockedBy := some blocker }
      else threads.record thread := by
  simp only [record, markBlockedNear, Table.get?_mapEntries]
  obtain hget | ⟨found, hget⟩ := Option.eq_none_or_eq_some (threads.records.get? thread)
  · simp [hget, isNear]
  · simp [hget]

theorem blockedBy_setLast (point : Point) :
    (threads.setLast point).blockedBy thread = threads.blockedBy thread := by
  rw [blockedBy, record_setLast]
  split <;> rfl

theorem isNear_iff (blocker : Point) (limit : TimeLimit) (record : ThreadRecord) :
    isNear blocker limit thread record = true ↔ thread ≠ blocker.thread ∧
      ∃ last, record.last = some last ∧ ∀ longest, limit = some longest →
        last.time ≤ blocker.time + longest ∧ blocker.time ≤ last.time + longest := by
  have hadmits : ∀ last : Point, limit.admits (last.distance blocker) = true ↔
      ∀ longest, limit = some longest →
        last.time ≤ blocker.time + longest ∧ blocker.time ≤ last.time + longest := by
    intro last
    cases limit with
    | none => simp [TimeLimit.admits]
    | some longest =>
        have hsum : last.distance blocker ≤ longest ↔
            last.time ≤ blocker.time + longest ∧ blocker.time ≤ last.time + longest := by
          unfold Point.distance
          omega
        simp [TimeLimit.admits, hsum]
  simp [isNear, Option.any_eq_true, hadmits]

end

section

variable {threads : ThreadRecords} {thread : ThreadId} {blocker : Point}

theorem blockedBy_clearBlockedBy (cleared : ThreadId)
    (h : (threads.clearBlockedBy cleared).blockedBy thread = some blocker) :
    threads.blockedBy thread = some blocker := by
  rw [blockedBy, record_clearBlockedBy] at h
  split at h
  · cases h
  · exact h

-- A thread is stalled by what stalled it before, or by a point of another thread.
theorem blockedBy_markBlockedNear (point : Point) (limit : TimeLimit)
    (h : (threads.markBlockedNear point limit).2.blockedBy thread = some blocker) :
    threads.blockedBy thread = some blocker ∨ blocker = point ∧ point.thread ≠ thread := by
  rw [blockedBy, record_markBlockedNear] at h
  split at h
  · rename_i hnear
    have hother := ((isNear_iff thread point limit _).mp hnear).1
    exact .inr ⟨(Option.some.inj h).symm, hother.symm⟩
  · exact .inl h

end

section

variable {requests : List Request} {thread : ThreadId} {blocker : Point}

theorem after_concat (requests : List Request) (request : Request) :
    after (requests ++ [request]) = (after requests).serve request := by
  rw [after, List.foldl_append, List.foldl_cons, List.foldl_nil, ← after]

theorem lastSet?_concat (requests : List Request) (request : Request) (thread : ThreadId) :
    lastSet? (requests ++ [request]) thread =
      (request.pointOf? thread).or (lastSet? requests thread) := by
  rw [lastSet?, List.filterMap_append]
  cases h : request.pointOf? thread with
  | none => simp [h, lastSet?]
  | some point => simp [h]

theorem last_after (requests : List Request) (thread : ThreadId) :
    (after requests).last thread = lastSet? requests thread := by
  induction requests using List.reverseRecOn with
  | nil => rfl
  | append_singleton requests request ih =>
      rw [after_concat, lastSet?_concat, ← ih]
      cases request with
      | setLast point =>
          simp only [serve, last, record_setLast, Request.pointOf?]
          split <;> simp
      | mark blocker limit =>
          simp only [serve, last, record_markBlockedNear, Request.pointOf?, Option.none_or]
          split <;> rfl
      | clear cleared =>
          simp only [serve, last, record_clearBlockedBy, Request.pointOf?, Option.none_or]
          split <;> rfl

theorem isNear_after_iff (requests : List Request) (blocker : Point) (limit : TimeLimit)
    (thread : ThreadId) :
    isNear blocker limit thread ((after requests).record thread) = true ↔
      Selects requests blocker limit thread := by
  rw [isNear_iff, Selects, ← last_after]
  rfl

-- A mark that selects a thread stalls it; any other request leaves what stalled it, unless it
-- touches the thread.
theorem stalledBy_concat {request : Request} :
    StalledBy (requests ++ [request]) thread blocker ↔
      (∃ limit, request = .mark blocker limit ∧ Selects requests blocker limit thread) ∨
        StalledBy requests thread blocker ∧ ¬ Touches requests thread request := by
  constructor
  · rintro ⟨before, limit, later, hsplit, hselects, hlater⟩
    rcases List.eq_nil_or_concat later with rfl | ⟨front, last, rfl⟩
    · obtain ⟨rfl, heq⟩ := List.append_inj' hsplit rfl
      exact .inl ⟨limit, List.singleton_inj.mp heq, hselects⟩
    · rw [List.concat_eq_append, ← List.cons_append, ← List.append_assoc] at hsplit
      obtain ⟨rfl, heq⟩ := List.append_inj' hsplit rfl
      obtain rfl := List.singleton_inj.mp heq
      refine .inr ⟨⟨before, limit, front, rfl, hselects, ?_⟩, ?_⟩
      · rintro early other back rfl
        exact hlater early other (back ++ [request]) (by simp)
      · exact hlater front request [] (by simp)
  · rintro (⟨limit, rfl, hselects⟩ | ⟨⟨before, limit, later, rfl, hselects, hlater⟩, htouches⟩)
    · refine ⟨requests, limit, [], rfl, hselects, ?_⟩
      intro front request back hsplit
      simp at hsplit
    · refine ⟨before, limit, later ++ [request], by simp, hselects, ?_⟩
      intro front other back hsplit
      rcases List.eq_nil_or_concat back with rfl | ⟨rest, last, rfl⟩
      · obtain ⟨rfl, heq⟩ := List.append_inj' hsplit rfl
        obtain rfl := List.singleton_inj.mp heq
        exact htouches
      · rw [List.concat_eq_append, ← List.cons_append, ← List.append_assoc] at hsplit
        obtain ⟨rfl, -⟩ := List.append_inj' hsplit rfl
        exact hlater front other rest rfl

theorem not_stalledBy_nil : ¬ StalledBy [] thread blocker := by
  rintro ⟨before, limit, later, hsplit, -⟩
  simp at hsplit

theorem StalledBy.ne (h : StalledBy requests thread blocker) : blocker.thread ≠ thread := by
  obtain ⟨before, limit, later, -, hselects, -⟩ := h
  exact hselects.1.symm

theorem blockedBy_after_iff (requests : List Request) (thread : ThreadId) (blocker : Point) :
    (after requests).blockedBy thread = some blocker ↔ StalledBy requests thread blocker := by
  induction requests using List.reverseRecOn with
  | nil => simp [after, blockedBy, record, Table.get?, Entries.find, Table.empty, not_stalledBy_nil]
  | append_singleton requests request ih =>
      rw [after_concat, stalledBy_concat, ← ih]
      cases request with
      | setLast point => simp [serve, blockedBy_setLast, Touches]
      | mark other limit =>
          have hmark : (∃ longest, Request.mark other limit = .mark blocker longest ∧
              Selects requests blocker longest thread) ↔
              other = blocker ∧ Selects requests other limit thread := by
            constructor
            · rintro ⟨longest, heq, hselects⟩
              obtain ⟨rfl, rfl⟩ := Request.mark.inj heq
              exact ⟨rfl, hselects⟩
            · rintro ⟨rfl, hselects⟩
              exact ⟨limit, rfl, hselects⟩
          have hnear := isNear_after_iff requests other limit thread
          simp only [serve, blockedBy, record_markBlockedNear, Touches, hmark]
          by_cases hselects : Selects requests other limit thread
          · simp [hselects, hnear.mpr hselects]
          · simp [hselects, mt hnear.mp hselects]
      | clear cleared =>
          simp only [serve, blockedBy, record_clearBlockedBy, Touches]
          by_cases he : cleared = thread <;> simp [he]

-- A mark makes its blocker stall the threads that it selects, and leaves all other records.
theorem record_marked (requests : List Request) (blocker : Point) (limit : TimeLimit)
    (thread : ThreadId) :
    let marked := ((after requests).markBlockedNear blocker limit).2.record thread
    (Selects requests blocker limit thread →
        marked = { (after requests).record thread with blockedBy := some blocker }) ∧
      (¬ Selects requests blocker limit thread → marked = (after requests).record thread) := by
  intro marked
  have hmarked : marked = _ := record_markBlockedNear (after requests) thread blocker limit
  rw [← isNear_after_iff, hmarked]
  exact ⟨fun h => if_pos h, fun h => if_neg h⟩

end

section

variable {threads : ThreadRecords} {blocker : Point} {limit : TimeLimit}

theorem record_of_get? {thread : ThreadId} {found : ThreadRecord}
    (h : threads.records.get? thread = some found) : threads.record thread = found := by
  rw [record, h, Option.getD_some]

theorem mem_keys_of_isNear {thread : ThreadId}
    (h : isNear blocker limit thread (threads.record thread) = true) :
    thread ∈ threads.records.keys := by
  rw [← Table.get?_isSome_iff]
  cases hget : threads.records.get? thread with
  | none => simp [record, hget, isNear] at h
  | some found => rfl

theorem countP_keys (threads : ThreadRecords) (blocker : Point) (limit : TimeLimit) :
    threads.records.keys.countP (fun thread =>
      isNear blocker limit thread (threads.record thread)) =
      (threads.markBlockedNear blocker limit).1 := by
  rw [Table.keys, List.countP_map, markBlockedNear]
  apply List.countP_congr
  intro entry hm
  rw [Function.comp_apply, record_of_get? (Table.get?_of_mem_entries hm)]

-- What a mark does to a record when it has come to some of them.
def stall (blocker : Point) (limit : TimeLimit) (order : List ThreadId) (thread : ThreadId)
    (record : ThreadRecord) : ThreadRecord :=
  if thread ∈ order ∧ isNear blocker limit thread record then
    { record with blockedBy := some blocker }
  else record

def visited (blocker : Point) (limit : TimeLimit) (threads : ThreadRecords)
    (order : List ThreadId) : Nat × ThreadRecords :=
  (order.countP fun thread => isNear blocker limit thread (threads.record thread),
    { records := threads.records.mapEntries (stall blocker limit order) })

theorem visited_nil (blocker : Point) (limit : TimeLimit) (threads : ThreadRecords) :
    visited blocker limit threads [] = (0, threads) := by
  simp [visited, stall, Table.mapEntries]

theorem visited_concat {order : List ThreadId} {thread : ThreadId}
    (hm : thread ∈ threads.records.keys) (hnew : thread ∉ order) :
    visit blocker limit (visited blocker limit threads order) thread =
      visited blocker limit threads (order ++ [thread]) := by
  obtain ⟨found, hfound⟩ :=
    Option.isSome_iff_exists.mp ((Table.get?_isSome_iff threads.records thread).mpr hm)
  have hkept : (visited blocker limit threads order).2.records.get? thread = some found := by
    simp [visited, stall, Table.get?_mapEntries, hfound, hnew]
  have hcount : (visited blocker limit threads (order ++ [thread])).1 =
      (visited blocker limit threads order).1 +
        if isNear blocker limit thread found then 1 else 0 := by
    simp [visited, List.countP_append, List.countP_singleton, record_of_get? hfound]
  have hrecords : (visited blocker limit threads (order ++ [thread])).2.records =
      (visited blocker limit threads order).2.records.insert thread
        (stall blocker limit (order ++ [thread]) thread found) := by
    apply Table.mapEntries_eq_insert hfound
    intro other value hne
    simp [stall, hne]
  rw [visit, hkept]
  by_cases hnear : isNear blocker limit thread found = true
  · simp only [if_pos hnear]
    rw [stall, if_pos ⟨by simp, hnear⟩] at hrecords
    rw [if_pos hnear] at hcount
    exact Prod.ext hcount.symm (congrArg ThreadRecords.mk hrecords.symm)
  · simp only [if_neg hnear]
    rw [stall, if_neg fun h => hnear h.2, Table.insert_of_get? hkept] at hrecords
    rw [if_neg hnear, Nat.add_zero] at hcount
    exact Prod.ext hcount.symm (congrArg ThreadRecords.mk hrecords.symm)

-- Whatever the order of the records, one after the other they are marked as all at once.
theorem foldl_visit {order : List ThreadId} (h : order.Perm threads.records.keys) :
    order.foldl (visit blocker limit) (0, threads) = threads.markBlockedNear blocker limit := by
  have hvisited : ∀ front, front <+: order →
      front.foldl (visit blocker limit) (0, threads) = visited blocker limit threads front := by
    intro front hfront
    induction front using List.reverseRecOn with
    | nil => exact (visited_nil blocker limit threads).symm
    | append_singleton front thread ih =>
        have hnodup := (h.nodup_iff.mpr threads.records.keys_nodup).sublist hfront.sublist
        have hm : thread ∈ threads.records.keys :=
          h.mem_iff.mp (hfront.subset (by simp))
        have hnew : thread ∉ front := by
          intro hm
          exact (List.nodup_append.mp hnodup).2.2 thread hm thread (by simp) rfl
        rw [List.foldl_append, ih ((List.prefix_append _ _).trans hfront), List.foldl_cons,
          List.foldl_nil, visited_concat hm hnew]
  have hall : threads.records.mapEntries (stall blocker limit order) =
      threads.records.mapEntries fun thread record =>
        if isNear blocker limit thread record then { record with blockedBy := some blocker }
        else record := by
    apply Table.mapEntries_congr
    intro entry hentry
    have hm : entry.1 ∈ order := h.mem_iff.mpr (List.mem_map_of_mem hentry)
    simp only [stall, hm, true_and]
  rw [hvisited order (List.prefix_refl order), visited, h.countP_eq, countP_keys, hall]
  rfl

end

-- The number that a mark gives is that of the threads that it selects.
theorem markBlockedNear_fst (requests : List Request) (blocker : Point) (limit : TimeLimit) :
    ((after requests).markBlockedNear blocker limit).1 =
      {thread | Selects requests blocker limit thread}.ncard := by
  have hselected : {thread | Selects requests blocker limit thread} =
      (((after requests).records.keys.filter fun thread =>
        isNear blocker limit thread ((after requests).record thread)).toFinset : Set ThreadId) := by
    ext thread
    simp only [Set.mem_ofPred_eq, ← isNear_after_iff, List.coe_toFinset, List.mem_filter]
    exact ⟨fun h => ⟨mem_keys_of_isNear h, h⟩, fun h => h.2⟩
  rw [hselected, Set.ncard_coe_finset,
    List.toFinset_card_of_nodup ((after requests).records.keys_nodup.filter _),
    ← List.countP_eq_length_filter, countP_keys]

-- After any requests the last point of a thread is the one that was set most recently, and what
-- stalls it is a point of another thread, the blocker of the latest mark that selected it if it
-- was not cleared since. A mark changes what stalls the threads that it selects, and nothing else;
-- it tells how many they are, and the order in which it visits the records does not matter.
theorem latest_mark_stalls (requests : List Request) :
    let threads := after requests
    (∀ thread, threads.last thread = lastSet? requests thread) ∧
      (∀ thread blocker, threads.blockedBy thread = some blocker ↔
        StalledBy requests thread blocker) ∧
      (∀ thread blocker, threads.blockedBy thread = some blocker → blocker.thread ≠ thread) ∧
      ∀ (blocker : Point) (limit : TimeLimit),
        let marked := threads.markBlockedNear blocker limit
        (∀ thread,
          (Selects requests blocker limit thread → marked.2.record thread =
            { threads.record thread with blockedBy := some blocker }) ∧
          (¬ Selects requests blocker limit thread →
            marked.2.record thread = threads.record thread)) ∧
          marked.2.records.keys = threads.records.keys ∧
          marked.1 = {thread | Selects requests blocker limit thread}.ncard ∧
          ∀ order : List ThreadId, order.Perm threads.records.keys →
            order.foldl (visit blocker limit) (0, threads) = marked := by
  intro threads
  refine ⟨last_after requests, blockedBy_after_iff requests, ?_, ?_⟩
  · intro thread blocker h
    exact ((blockedBy_after_iff requests thread blocker).mp h).ne
  · intro blocker limit marked
    refine ⟨record_marked requests blocker limit, Table.keys_mapEntries _ _,
      markBlockedNear_fst requests blocker limit, ?_⟩
    intro order h
    exact foldl_visit h

-- Two threads near each other, and a third one whose record was cleared behind a mark.
namespace Sample

def pointOf (thread : ThreadId) (time : Nat) : Point :=
  { callee := "List.Add", caller := "Worker", offset := 1, thread, time }

def requests : List Request :=
  [.setLast (pointOf 1 10), .setLast (pointOf 2 15), .setLast (pointOf 3 90),
    .mark (pointOf 1 20) (some 100), .clear 3]

end Sample

theorem latest_mark_stalls_of_cleared :
    let threads := after Sample.requests
    let blocker := Sample.pointOf 3 60
    let marked := threads.markBlockedNear blocker (some 45)
    threads.blockedBy 2 = some (Sample.pointOf 1 20) ∧ (Sample.pointOf 1 20).thread ≠ 2 ∧
      threads.blockedBy 3 = none ∧ Selects Sample.requests blocker (some 45) 2 ∧
      marked.2.record 2 = { threads.record 2 with blockedBy := some blocker } ∧
      ¬ Selects Sample.requests blocker (some 45) 1 ∧
      marked.2.record 1 = threads.record 1 ∧
      [2, 3, 1].Perm threads.records.keys ∧
      [2, 3, 1].foldl (visit blocker (some 45)) (0, threads) = marked := by
  intro threads blocker marked
  obtain ⟨-, -, hother, hmark⟩ := latest_mark_stalls Sample.requests
  obtain ⟨hrecord, -, -, horder⟩ := hmark blocker (some 45)
  have hstalled : threads.blockedBy 2 = some (Sample.pointOf 1 20) := by decide +kernel
  have hnear : Selects Sample.requests blocker (some 45) 2 := by
    rw [← isNear_after_iff]
    decide +kernel
  have hfar : ¬ Selects Sample.requests blocker (some 45) 1 := by
    rw [← isNear_after_iff]
    decide +kernel
  have hperm : [2, 3, 1].Perm threads.records.keys := by decide +kernel
  exact ⟨hstalled, hother 2 _ hstalled, by decide +kernel, hnear, (hrecord 2).1 hnear, hfar,
    (hrecord 1).2 hfar, hperm, horder _ hperm⟩

end ThreadRecords

end DelayInjection
