import Mathlib.Data.List.Induction
import DelayInjection.Proofs.Trap.Filing

-- Traps come into the buckets of any groups and leave them in any order. A trap stands from its
-- registration until a removal under its number reaches the list that it is in. The buckets hold
-- the standing traps, each list in order of registration, and nothing else.

namespace DelayInjection

namespace TrapBucket

-- Every list that a bucket keeps holds a trap.
def Filled (bucket : TrapBucket) : Prop := ∀ object, bucket.traps.get? object ≠ some []

theorem Filled.register {bucket : TrapBucket} (h : bucket.Filled) (trap : Trap) :
    (bucket.register trap).Filled := by
  intro object
  rw [TrapBucket.register, Table.get?_insert]
  split
  · simp
  · exact h object

theorem Filled.remove {bucket : TrapBucket} (h : bucket.Filled) (trap : Trap) :
    (bucket.remove trap).Filled := by
  intro object
  unfold TrapBucket.remove
  cases hget : bucket.traps.get? trap.object with
  | none => exact h object
  | some traps =>
      by_cases hkept : (traps.filter (·.id != trap.id)).isEmpty
      · simp only [hkept, if_true, Table.get?_erase]
        split
        · simp
        · exact h object
      · simp only [hkept, Bool.false_eq_true, if_false, Table.get?_insert]
        split
        · simpa only [Option.some.injEq, ne_eq, List.isEmpty_iff] using hkept
        · exact h object

end TrapBucket

namespace TrapStore

-- What is done under the lock of the bucket of a group.
inductive Request
  | register (group : String) (trap : Trap)
  | remove (group : String) (trap : Trap)
deriving DecidableEq

def serve (store : TrapStore) : Request → TrapStore
  | .register group trap => store.registerIn group trap
  | .remove group trap => store.removeFrom group trap

def after (requests : List Request) : TrapStore := requests.foldl serve {}

theorem after_concat (requests : List Request) (request : Request) :
    after (requests ++ [request]) = (after requests).serve request := by
  simp [after]

namespace Request

-- A trap is taken out of the bucket of a group by its number, from the list of its object.
def Takes : Request → String → Trap → Prop
  | .register _ _, _, _ => False
  | .remove group removed, place, trap =>
      group = place ∧ removed.object = trap.object ∧ removed.id = trap.id

instance : (request : Request) → (place : String) → (trap : Trap) →
    Decidable (request.Takes place trap)
  | .register _ _, _, _ => inferInstanceAs (Decidable False)
  | .remove _ _, _, _ => inferInstanceAs (Decidable (_ ∧ _ ∧ _))

theorem not_takes_register {group place : String} {filed trap : Trap} :
    ¬ (register group filed).Takes place trap :=
  id

def registered : Request → List (String × Trap)
  | .register group trap => [(group, trap)]
  | .remove _ _ => []

end Request

-- All registrations, each with the group that it is for.
def registrations (requests : List Request) : List (String × Trap) :=
  requests.flatMap Request.registered

-- The registrations that no later request takes back, in their order.
def standing : List Request → List (String × Trap)
  | [] => []
  | .register group trap :: later =>
      if ∃ request ∈ later, request.Takes group trap then standing later
      else (group, trap) :: standing later
  | .remove _ _ :: later => standing later

def standingOn (requests : List Request) (group : String) (object : ObjectId) : List Trap :=
  ((standing requests).filter fun entry => entry.1 = group ∧ entry.2.object = object).map Prod.snd

section

variable {requests : List Request} {group : String} {trap : Trap}

theorem mem_registrations_iff :
    (group, trap) ∈ registrations requests ↔ .register group trap ∈ requests := by
  rw [registrations, List.mem_flatMap]
  constructor
  · rintro ⟨request, hm, hregistered⟩
    cases request with
    | register other filed =>
        obtain ⟨rfl, rfl⟩ := Prod.mk.inj (List.mem_singleton.mp hregistered)
        exact hm
    | remove _ _ => cases hregistered
  · exact fun hm => ⟨_, hm, List.mem_singleton_self _⟩

theorem standing_sublist (requests : List Request) :
    (standing requests).Sublist (registrations requests) := by
  induction requests with
  | nil => exact List.Sublist.refl _
  | cons request later ih =>
      cases request with
      | register group trap =>
          rw [standing]
          split
          · exact ih.cons _
          · exact ih.cons_cons _
      | remove _ _ => exact ih

theorem mem_standing_cons_iff {first : Request} : (group, trap) ∈ standing (first :: requests) ↔
    (first = .register group trap ∧ ∀ request ∈ requests, ¬ request.Takes group trap) ∨
      (group, trap) ∈ standing requests := by
  cases first with
  | remove _ _ => simp [standing]
  | register other filed =>
      by_cases htaken : ∃ request ∈ requests, request.Takes other filed
      · have hnot : ¬ (Request.register other filed = .register group trap ∧
            ∀ request ∈ requests, ¬ request.Takes group trap) := by
          rintro ⟨heq, hnone⟩
          obtain ⟨rfl, rfl⟩ := Request.register.inj heq
          obtain ⟨request, hm, htakes⟩ := htaken
          exact hnone request hm htakes
        rw [standing, if_pos htaken, or_iff_right hnot]
      · rw [standing, if_neg htaken, List.mem_cons, Prod.mk.injEq, Request.register.injEq]
        refine or_congr_left ⟨?_, ?_⟩
        · rintro ⟨rfl, rfl⟩
          exact ⟨⟨rfl, rfl⟩, fun request hm htakes => htaken ⟨request, hm, htakes⟩⟩
        · rintro ⟨⟨rfl, rfl⟩, -⟩
          exact ⟨rfl, rfl⟩

-- A trap stands when nothing behind its registration takes it.
theorem mem_standing_iff : (group, trap) ∈ standing requests ↔
    ∃ before later, requests = before ++ .register group trap :: later ∧
      ∀ request ∈ later, ¬ request.Takes group trap := by
  induction requests with
  | nil => simp [standing]
  | cons first rest ih =>
      rw [mem_standing_cons_iff, ih]
      constructor
      · rintro (⟨rfl, hlater⟩ | ⟨before, later, rfl, hlater⟩)
        · exact ⟨[], rest, rfl, hlater⟩
        · exact ⟨first :: before, later, rfl, hlater⟩
      · rintro ⟨before, later, hcut, hlater⟩
        rcases before with _ | ⟨other, before⟩
        · obtain ⟨rfl, rfl⟩ := List.cons.inj hcut
          exact .inl ⟨rfl, hlater⟩
        · exact .inr ⟨before, later, (List.cons.inj hcut).2, hlater⟩

-- A request takes its traps out of the standing ones, and a registration joins them at the end.
theorem standing_concat (requests : List Request) (request : Request) :
    standing (requests ++ [request]) =
      (standing requests).filter (fun entry => !request.Takes entry.1 entry.2) ++
        request.registered := by
  induction requests with
  | nil => cases request <;> simp [standing, Request.registered]
  | cons first rest ih =>
      cases first with
      | remove _ _ => exact ih
      | register group trap =>
          rw [List.cons_append, standing, standing, ih]
          by_cases htaken : ∃ other ∈ rest, other.Takes group trap
          · obtain ⟨other, hm, htakes⟩ := htaken
            rw [if_pos ⟨other, List.mem_append_left _ hm, htakes⟩, if_pos ⟨other, hm, htakes⟩]
          · have hlast : (∃ other ∈ rest ++ [request], other.Takes group trap) ↔
                request.Takes group trap := by
              simp only [List.mem_append, List.mem_singleton, or_and_right, exists_or, htaken,
                false_or, exists_eq_left]
            rw [if_neg htaken]
            by_cases htakes : request.Takes group trap
            · rw [if_pos (hlast.mpr htakes), List.filter_cons_of_neg (by simpa using htakes)]
            · rw [if_neg (mt hlast.mp htakes), List.filter_cons_of_pos (by simpa using htakes),
                List.cons_append]

theorem standing_register (requests : List Request) (group : String) (trap : Trap) :
    standing (requests ++ [.register group trap]) = standing requests ++ [(group, trap)] := by
  rw [standing_concat]
  simp [Request.not_takes_register, Request.registered]

theorem standing_remove (requests : List Request) (group : String) (trap : Trap) :
    standing (requests ++ [.remove group trap]) =
      (standing requests).filter fun entry =>
        !(Request.remove group trap).Takes entry.1 entry.2 := by
  rw [standing_concat, Request.registered, List.append_nil]

theorem mem_standingOn_iff {object : ObjectId} :
    trap ∈ standingOn requests group object ↔
      (group, trap) ∈ standing requests ∧ trap.object = object := by
  simp only [standingOn, List.mem_map, List.mem_filter, decide_eq_true_eq]
  constructor
  · rintro ⟨⟨place, other⟩, ⟨hm, rfl, hobject⟩, rfl⟩
    exact ⟨hm, hobject⟩
  · rintro ⟨hm, hobject⟩
    exact ⟨(group, trap), ⟨hm, rfl, hobject⟩, rfl⟩

end

section

variable (requests : List Request)

theorem standingOn_register (place : String) (trap : Trap) (group : String) (object : ObjectId) :
    standingOn (requests ++ [.register place trap]) group object =
      if place = group ∧ trap.object = object then standingOn requests group object ++ [trap]
      else standingOn requests group object := by
  rw [standingOn, standing_register, List.filter_append, List.map_append, standingOn]
  by_cases hplace : place = group ∧ trap.object = object
  · simp [hplace]
  · simp [hplace]

-- A removal takes what lies in the list that it looks into and has its number.
theorem takes_eq (place : String) (removed : Trap) (entry : String × Trap) :
    decide ((Request.remove place removed).Takes entry.1 entry.2) =
      (decide (entry.1 = place ∧ entry.2.object = removed.object) &&
        entry.2.id == removed.id) := by
  simp only [Request.Takes]
  grind

theorem standingOn_remove (place : String) (removed : Trap) (group : String) (object : ObjectId) :
    standingOn (requests ++ [.remove place removed]) group object =
      if place = group ∧ removed.object = object then
        (standingOn requests group object).filter (·.id != removed.id)
      else standingOn requests group object := by
  rw [standingOn, standing_remove, List.filter_filter, standingOn]
  split
  · rw [List.filter_map, List.filter_filter]
    congr 1
    apply List.filter_congr
    intro entry _
    rw [takes_eq, Function.comp_apply]
    grind
  · congr 1
    apply List.filter_congr
    intro entry _
    rw [takes_eq]
    grind

theorem on_after (group : String) (object : ObjectId) :
    (after requests).on group object = standingOn requests group object := by
  induction requests using List.reverseRecOn with
  | nil => rfl
  | append_singleton requests request ih =>
      rw [after_concat]
      cases request with
      | register place trap => rw [serve, on_registerIn, ih, standingOn_register]
      | remove place removed => rw [serve, on_removeFrom, ih, standingOn_remove]

-- The traps that a removal finds under its number are the standing ones that it takes.
theorem found_after (group : String) (removed : Trap) :
    ((after requests).on group removed.object).filter (·.id == removed.id) =
      ((standing requests).filter fun entry =>
        (Request.remove group removed).Takes entry.1 entry.2).map Prod.snd := by
  rw [on_after, standingOn, List.filter_map, List.filter_filter]
  congr 1
  apply List.filter_congr
  intro entry _
  rw [takes_eq, Function.comp_apply, Bool.and_comm]

theorem all_after_perm : (after requests).all.Perm ((standing requests).map Prod.snd) := by
  induction requests using List.reverseRecOn with
  | nil => exact List.Perm.refl _
  | append_singleton requests request ih =>
      rw [after_concat]
      cases request with
      | register place trap =>
          rw [standing_register, List.map_append]
          exact ((all_registerIn_perm _ place trap).trans (ih.cons trap)).trans
            (List.perm_append_singleton trap _).symm
      | remove place removed =>
          have hsplit := (List.filter_append_perm (fun entry =>
            decide ((Request.remove place removed).Takes entry.1 entry.2))
              (standing requests)).map Prod.snd
          have hremoved := (all_removeFrom_perm (after requests) place removed).trans ih
          rw [List.map_append] at hsplit
          rw [found_after] at hremoved
          rw [standing_remove]
          exact (List.perm_append_right_iff _).mp
            (hremoved.trans (hsplit.symm.trans List.perm_append_comm))

theorem filled_after (group : String) : ((after requests).bucket group).Filled := by
  induction requests using List.reverseRecOn generalizing group with
  | nil => exact nofun
  | append_singleton requests request ih =>
      rw [after_concat]
      cases request with
      | register place trap =>
          rw [serve, registerIn, bucket_insert]
          split
          · exact (ih place).register trap
          · exact ih group
      | remove place removed =>
          rw [serve, removeFrom, bucket_insert]
          split
          · exact (ih place).remove removed
          · exact ih group

theorem outstanding_after : (after requests).outstanding = (standing requests).length := by
  rw [outstanding_eq_length_all, (all_after_perm requests).length_eq, List.length_map]

end

-- A number that is not repeated is that of one trap at most.
theorem filter_id_eq_eraseP {traps : List Trap} (hids : (traps.map Trap.id).Nodup) (id : Nat) :
    traps.filter (·.id != id) = traps.eraseP (·.id == id) := by
  induction traps with
  | nil => rfl
  | cons first rest ih =>
      by_cases hid : first.id = id
      · have hkeep : rest.filter (·.id != id) = rest := by
          apply List.filter_eq_self.mpr
          intro other hm
          have hne := id_ne_of_nodup hids other hm
          simpa [hid] using hne
        rw [List.filter_cons_of_neg (by simpa using hid), hkeep,
          List.eraseP_cons_of_pos (by simpa using hid)]
      · rw [List.filter_cons_of_pos (by simpa using hid), ih (List.nodup_cons.mp hids).2,
          List.eraseP_cons_of_neg (by simpa using hid)]

section

variable {requests : List Request} {group : String} {trap : Trap}

-- Registered traps have numbers of their own.
def Numbered (requests : List Request) : Prop :=
  ((registrations requests).map fun entry => entry.2.id).Nodup

instance : Decidable (Numbered requests) := inferInstanceAs (Decidable (List.Nodup _))

theorem Numbered.ids_standing (h : Numbered requests) :
    ((standing requests).map fun entry => entry.2.id).Nodup :=
  List.Nodup.sublist ((standing_sublist requests).map _) h

theorem Numbered.ids_standingOn (h : Numbered requests) (group : String) (object : ObjectId) :
    ((standingOn requests group object).map Trap.id).Nodup := by
  rw [standingOn, List.map_map]
  exact List.Nodup.sublist (List.filter_sublist.map _) h.ids_standing

-- A standing trap is in the list of its group and object, once, and in no other list.
theorem Numbered.placed (h : Numbered requests) (hm : (group, trap) ∈ standing requests) :
    (after requests).all.count trap = 1 ∧
      ∀ place object, trap ∈ (after requests).on place object ↔
        place = group ∧ object = trap.object := by
  have hids : (((standing requests).map Prod.snd).map Trap.id).Nodup := by
    rw [List.map_map]
    exact h.ids_standing
  refine ⟨?_, fun place object => ?_⟩
  · rw [(all_after_perm requests).count_eq]
    exact List.count_eq_one_of_mem (List.Nodup.of_map _ hids) (List.mem_map_of_mem hm)
  · rw [on_after, mem_standingOn_iff]
    constructor
    · rintro ⟨hplace, rfl⟩
      have heq := List.inj_on_of_nodup_map h.ids_standing hplace hm rfl
      exact ⟨(Prod.mk.inj heq).1, rfl⟩
    · rintro ⟨rfl, rfl⟩
      exact ⟨hm, rfl⟩

-- At most one trap leaves, and it has the number that is removed.
theorem Numbered.on_removed (h : Numbered requests) (group : String) (trap : Trap)
    (place : String) (object : ObjectId) :
    ((after requests).removeFrom group trap).on place object =
      if group = place ∧ trap.object = object then
        ((after requests).on place object).eraseP (·.id == trap.id)
      else (after requests).on place object := by
  rw [on_removeFrom]
  split
  · refine filter_id_eq_eraseP ?_ trap.id
    rw [on_after]
    exact h.ids_standingOn place object
  · rfl

-- Nothing is removed under a number that no trap of the list has.
theorem unchanged_removed (hnone : ∀ other ∈ (after requests).on group trap.object,
    other.id ≠ trap.id) :
    (∀ place object, ((after requests).removeFrom group trap).on place object =
        (after requests).on place object) ∧
      ((after requests).removeFrom group trap).outstanding = (after requests).outstanding := by
  constructor
  · intro place object
    rw [on_removeFrom]
    split
    · rename_i hplace
      obtain ⟨rfl, rfl⟩ := hplace
      apply List.filter_eq_self.mpr
      intro other hm
      simpa using hnone other hm
    · rfl
  · have hempty : ((after requests).on group trap.object).filter (·.id == trap.id) = [] := by
      apply List.filter_eq_nil_iff.mpr
      intro other hm
      simpa using hnone other hm
    have hperm := all_removeFrom_perm (after requests) group trap
    rw [hempty, List.append_nil] at hperm
    rw [outstanding_eq_length_all, outstanding_eq_length_all, hperm.length_eq]

-- Traps of other groups, traps that are gone and traps that were never there are not in the list.
theorem other_number_of_not_standing (hm : (group, trap) ∉ standing requests)
    (hown : ∀ place other, .register place other ∈ requests → other.id = trap.id → other = trap) :
    ∀ other ∈ (after requests).on group trap.object, other.id ≠ trap.id := by
  intro other hother hid
  rw [on_after, mem_standingOn_iff] at hother
  have hregistered := mem_registrations_iff.mp ((standing_sublist requests).subset hother.1)
  have heq := hown group other hregistered hid
  exact hm (heq ▸ hother.1)

end

-- After any requests in which registered traps have numbers of their own, the list of a group and
-- an object holds the traps that were registered there and not removed later, in order of
-- registration. Such a trap is in this list alone, and once. A removal takes one trap at most, the
-- one with its number in the list that it looks into, and leaves all others where they are; that of
-- a trap that does not stand in the group changes nothing. No empty list is kept, and as many
-- traps are outstanding as were registered and not removed.
theorem standing_traps_listed (requests : List Request) (h : Numbered requests) :
    let store := after requests
    (∀ group object, store.on group object = standingOn requests group object) ∧
      (standing requests).Sublist (registrations requests) ∧
      (∀ group trap, (group, trap) ∈ standing requests ↔
        ∃ before later, requests = before ++ .register group trap :: later ∧
          ∀ request ∈ later, ¬ request.Takes group trap) ∧
      (∀ group trap, (group, trap) ∈ standing requests →
        store.all.count trap = 1 ∧
          ∀ place object, trap ∈ store.on place object ↔ place = group ∧ object = trap.object) ∧
      (∀ group trap,
        let removed := store.removeFrom group trap
        (∀ place object, removed.on place object =
          if group = place ∧ trap.object = object then
            (store.on place object).eraseP (·.id == trap.id)
          else store.on place object) ∧
        ((group, trap) ∉ standing requests →
          (∀ place other, .register place other ∈ requests → other.id = trap.id → other = trap) →
          (∀ place object, removed.on place object = store.on place object) ∧
            removed.outstanding = store.outstanding)) ∧
      (∀ group object, (store.bucket group).traps.get? object ≠ some []) ∧
      store.outstanding = (standing requests).length := by
  intro store
  refine ⟨on_after requests, standing_sublist requests, fun _ _ => mem_standing_iff,
    fun _ _ => h.placed, ?_, filled_after requests, outstanding_after requests⟩
  intro group trap removed
  refine ⟨h.on_removed group trap, fun hm hown => ?_⟩
  exact unchanged_removed (other_number_of_not_standing hm hown)

-- Two traps of one group on an object, and one of another group on the same object. The first is
-- removed twice, the second also from the group that it is not in.
namespace Sample

def trapIn (group : String) (id : Nat) : Trap where
  id := id
  point :=
    { callee := "List.Add", caller := "Worker", offset := 1, thread := id.toUInt64, object := 7 }
  classification := { group := { name := group }, isWrite := true }
  delayMs := 10

def first : Trap := trapIn "List" 1

def second : Trap := trapIn "List" 2

def third : Trap := trapIn "Map" 3

def requests : List Request :=
  [.register "List" first, .register "List" second, .remove "List" first, .register "Map" third,
    .remove "Map" second, .remove "List" first]

end Sample

theorem standing_traps_listed_of_repeated :
    let store := after Sample.requests
    Numbered Sample.requests ∧
      store.on "List" 7 = [Sample.second] ∧ store.on "Map" 7 = [Sample.third] ∧
      ("List", Sample.second) ∈ standing Sample.requests ∧
      store.all.count Sample.second = 1 ∧ Sample.second ∉ store.on "Map" 7 ∧
      (store.removeFrom "List" Sample.second).on "List" 7 = [] ∧
      ("List", Sample.first) ∉ standing Sample.requests ∧
      (store.removeFrom "List" Sample.first).outstanding = store.outstanding ∧
      (store.bucket "List").traps.get? 8 ≠ some [] ∧ store.outstanding = 2 := by
  intro store
  have hids : Numbered Sample.requests := by decide +kernel
  have hsecond : ("List", Sample.second) ∈ standing Sample.requests := by decide +kernel
  have hfirst : ("List", Sample.first) ∉ standing Sample.requests := by decide +kernel
  obtain ⟨hon, -, -, hplaced, hremoved, hfilled, houtstanding⟩ :=
    standing_traps_listed Sample.requests hids
  have hown : ∀ place other, Request.register place other ∈ Sample.requests →
      other.id = Sample.first.id → other = Sample.first := by
    intro place other hm hid
    simp only [Sample.requests, List.mem_cons, Request.register.injEq, reduceCtorEq,
      List.not_mem_nil, or_false, false_or] at hm
    rcases hm with ⟨-, rfl⟩ | ⟨-, rfl⟩ | ⟨-, rfl⟩
    · rfl
    · exact absurd hid (by decide)
    · exact absurd hid (by decide)
  have hlist : store.on "List" 7 = [Sample.second] := by
    rw [hon]
    decide +kernel
  refine ⟨hids, hlist, ?_, hsecond, (hplaced _ _ hsecond).1, ?_, ?_, hfirst,
    ((hremoved _ _).2 hfirst hown).2, hfilled _ _, ?_⟩
  · rw [hon]
    decide +kernel
  · rw [(hplaced _ _ hsecond).2]
    decide
  · rw [(hremoved _ _).1, hlist]
    decide +kernel
  · rw [houtstanding]
    decide +kernel

end TrapStore

end DelayInjection
