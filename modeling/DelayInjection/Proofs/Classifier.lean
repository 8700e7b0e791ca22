import Mathlib.Data.Finset.Card
import Mathlib.Data.List.Induction
import DelayInjection.Classifier
import DelayInjection.Proofs.Pattern
import DelayInjection.Proofs.Table

-- What a classifier answers. Answers are remembered, those that claim nothing too, and a
-- remembered answer is the one that going through the configured groups gives.

namespace DelayInjection

namespace PatternSet

-- Compiled patterns are those of the texts, in their order.
theorem matchesAny_of_compile {limit : RegexLimit} {texts : List String} {set : PatternSet}
    (h : compile limit texts = .ok set) (signature : String) :
    set.matchesAny signature = texts.any fun text => Pattern.accepts ⟨text⟩ signature := by
  induction texts generalizing set with
  | nil =>
      obtain rfl := Except.ok.inj h
      rfl
  | cons text rest ih =>
      unfold compile at h
      split at h
      · cases h
      · rename_i pattern hpattern
        obtain rfl := Pattern.text_of_compile? hpattern
        cases hrest : compile limit rest with
        | error refused =>
            rw [hrest] at h
            cases h
        | ok others =>
            rw [hrest] at h
            obtain rfl := Except.ok.inj h
            rw [List.any_cons, ← ih hrest]
            rfl

end PatternSet

namespace Group

def writes (group : Group) (callee : String) : Bool :=
  group.writeApis.any fun text => Pattern.accepts ⟨text⟩ callee

def reads (group : Group) (callee : String) : Bool :=
  group.readApis.any fun text => Pattern.accepts ⟨text⟩ callee

-- What groups make of a callee: the first one that writes or reads by it claims it, as a write if
-- it is one for this group.
def claimOf (groups : List Group) (callee : String) : Option Classification :=
  (groups.find? fun group => group.writes callee || group.reads callee).map fun group =>
    ⟨group, group.writes callee⟩

end Group

namespace CompiledGroup

section

variable {limit : RegexLimit} {group : Group} {groups : List Group} {compiled : CompiledGroup}
  {all : List CompiledGroup} {seen : List String}

theorem classify?_of_compile (h : compile limit group = .ok compiled) (callee : String) :
    compiled.classify? callee =
      if group.writes callee || group.reads callee then some ⟨group, group.writes callee⟩
      else none := by
  unfold compile at h
  cases hwrites : PatternSet.compile limit group.writeApis with
  | error refused =>
      rw [hwrites] at h
      cases h
  | ok writes =>
      cases hreads : PatternSet.compile limit group.readApis with
      | error refused =>
          rw [hwrites, hreads] at h
          cases h
      | ok reads =>
          rw [hwrites, hreads] at h
          obtain rfl := Except.ok.inj h
          rw [classify?, PatternSet.matchesAny_of_compile hwrites,
            PatternSet.matchesAny_of_compile hreads, ← Group.writes, ← Group.reads]
          cases group.writes callee <;> cases group.reads callee <;> rfl

theorem findSome?_of_compileAll (h : compileAll limit seen groups = .ok all) (callee : String) :
    all.findSome? (·.classify? callee) = Group.claimOf groups callee := by
  induction groups generalizing seen all with
  | nil =>
      obtain rfl := Except.ok.inj h
      rfl
  | cons group rest ih =>
      unfold compileAll at h
      split at h
      · cases h
      · cases hgroup : compile limit group with
        | error refused =>
            rw [hgroup] at h
            cases h
        | ok first =>
            cases hrest : compileAll limit (group.name :: seen) rest with
            | error refused =>
                simp only [hgroup, hrest] at h
                cases h
            | ok others =>
                simp only [hgroup, hrest] at h
                obtain rfl := Except.ok.inj h
                rw [List.findSome?_cons, classify?_of_compile hgroup, ih hrest, Group.claimOf,
                  Group.claimOf, List.find?_cons]
                cases group.writes callee || group.reads callee <;> rfl

end

end CompiledGroup

namespace Classifier

-- The answers so far and the classifier, after one question more.
def asked (state : List (Option Classification) × Classifier) (callee : String) :
    List (Option Classification) × Classifier :=
  (state.1 ++ [(state.2.classify callee).1], (state.2.classify callee).2)

def classifyAll (classifier : Classifier) (callees : List String) :
    List (Option Classification) × Classifier :=
  callees.foldl asked ([], classifier)

-- What a classifier knows after some questions: these callees and no others, with the answers that
-- a scan gives.
structure Remembers (start : Classifier) (callees : List String) (classifier : Classifier) :
    Prop where
  groups : classifier.groups = start.groups
  keys : ∀ callee, callee ∈ classifier.cache.keys ↔ callee ∈ callees
  answers : ∀ callee answer, classifier.cache.get? callee = some answer →
    answer = start.scan callee

section

variable {start classifier : Classifier} {callees : List String}

theorem remembers_start (h : start.cache = .empty) : Remembers start [] start where
  groups := rfl
  keys callee := by rw [h]; rfl
  answers callee answer hfound := by rw [h, Table.get?_empty] at hfound; cases hfound

theorem Remembers.classify (h : Remembers start callees classifier) (callee : String) :
    (classifier.classify callee).1 = start.scan callee ∧
      Remembers start (callees ++ [callee]) (classifier.classify callee).2 := by
  have hasked := (Table.get?_isSome_iff classifier.cache callee).trans (h.keys callee)
  have hscan : classifier.scan callee = start.scan callee := by rw [scan, h.groups, scan]
  unfold Classifier.classify
  cases hfound : classifier.cache.get? callee with
  | some answer =>
      rw [hfound] at hasked
      refine ⟨h.answers callee answer hfound, h.groups, fun other => ?_, h.answers⟩
      rw [h.keys, List.mem_append, List.mem_singleton]
      exact ⟨.inl, fun hm => hm.elim id fun he => he ▸ hasked.mp rfl⟩
  | none =>
      rw [hfound] at hasked
      have hnew : callee ∉ classifier.cache.keys := fun hm =>
        Bool.noConfusion (hasked.mpr ((h.keys callee).mp hm))
      refine ⟨hscan, h.groups, fun other => ?_, fun other answer hother => ?_⟩
      · rw [Table.keys_insert, if_neg hnew, List.mem_append, List.mem_append, h.keys]
      · rw [Table.get?_insert] at hother
        split at hother
        · rename_i he
          rw [← Option.some.inj hother, ← he, hscan]
        · exact h.answers other answer hother

theorem classifyAll_remembers (start : Classifier) (h : start.cache = .empty)
    (callees : List String) : (start.classifyAll callees).1 = callees.map start.scan ∧
      Remembers start callees (start.classifyAll callees).2 := by
  induction callees using List.reverseRecOn with
  | nil => exact ⟨rfl, remembers_start h⟩
  | append_singleton callees callee ih =>
      obtain ⟨hanswers, hknown⟩ := ih
      obtain ⟨hanswer, hnext⟩ := hknown.classify callee
      rw [classifyAll, List.foldl_append, List.foldl_cons, List.foldl_nil, ← classifyAll, asked,
        hanswers, hanswer, List.map_append]
      exact ⟨rfl, hnext⟩

theorem Remembers.cachedSignatures (h : Remembers start callees classifier) :
    classifier.cachedSignatures = callees.toFinset.card := by
  have hkeys : classifier.cache.keys.toFinset = callees.toFinset := by
    ext callee
    rw [List.mem_toFinset, List.mem_toFinset, h.keys]
  rw [← hkeys, List.toFinset_card_of_nodup classifier.cache.keys_nodup, Table.keys,
    List.length_map]
  rfl

end

-- However often and in whatever order callees are asked for, each answer is that of a scan: the
-- first configured group with a pattern for the callee, as a write if a write pattern of this
-- group is one, and nothing if no group has a pattern for it. One signature is kept for each
-- different callee.
theorem answers_scanned (limit : RegexLimit) (groups : List Group) (classifier : Classifier)
    (h : compile limit groups = .ok classifier) (callees : List String) :
    (classifier.classifyAll callees).1 = callees.map classifier.scan ∧
      (∀ callee, classifier.scan callee = Group.claimOf groups callee) ∧
      (classifier.classifyAll callees).2.cachedSignatures = callees.toFinset.card := by
  unfold compile at h
  cases hall : CompiledGroup.compileAll limit [] groups with
  | error e =>
      rw [hall] at h
      cases h
  | ok all =>
      rw [hall] at h
      obtain rfl := Except.ok.inj h
      obtain ⟨hanswers, hknown⟩ := classifyAll_remembers { groups := all } rfl callees
      exact ⟨hanswers, CompiledGroup.findSome?_of_compileAll hall, hknown.cachedSignatures⟩

-- Groups whose patterns overlap, and a callee that none of them has.
namespace Sample

def groups : List Group :=
  [{ name := "List", writeApis := ["List.Add*"], readApis := ["List.*"] },
    { name := "All", writeApis := ["List.Clear", "Map.*"] }]

def callees : List String := ["List.Clear", "List.AddAll", "Get", "List.Clear", "Get"]

end Sample

theorem answers_scanned_overlapping :
    ∃ classifier, compile Pattern.Sample.limit Sample.groups = .ok classifier ∧
      ((classifier.classifyAll Sample.callees).1.map fun answer =>
        answer.map fun found => (found.group.name, found.isWrite)) =
        [some ("List", false), some ("List", true), none, some ("List", false), none] ∧
      (classifier.classifyAll Sample.callees).2.cachedSignatures = 3 := by
  cases h : compile Pattern.Sample.limit Sample.groups with
  | error e =>
      have hok : (compile Pattern.Sample.limit Sample.groups).toOption.isSome = true := by
        decide +kernel
      rw [h] at hok
      cases hok
  | ok classifier =>
      obtain ⟨hanswers, hscan, hsize⟩ :=
        answers_scanned Pattern.Sample.limit Sample.groups classifier h Sample.callees
      refine ⟨classifier, rfl, ?_, ?_⟩
      · rw [hanswers, List.map_congr_left fun callee _ => hscan callee]
        decide +kernel
      · rw [hsize]
        decide +kernel

end Classifier

end DelayInjection
