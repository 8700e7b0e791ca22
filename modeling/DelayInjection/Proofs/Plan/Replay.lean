import Mathlib.Algebra.Order.Group.Unbundled.Int
import DelayInjection.Proofs.Pattern
import DelayInjection.Proofs.Persist.Distinct
import DelayInjection.Proofs.Persist.Loading
import DelayInjection.Proofs.Persist.PlanLine
import DelayInjection.Proofs.Plan.Grouping
import DelayInjection.Proofs.Table

-- Which of the call sites that a plan file records are planned in the run that loads it. Sides
-- with one key `callee;caller;offset` share a plan, and the first of them gives it its names.

namespace DelayInjection

namespace HitCount

-- A recorded count that says nothing, or from which the live one is no farther than a window.
def Within (recorded live window : Int64) : Prop :=
  recorded.toInt < 0 ∨ |live.toInt - recorded.toInt| ≤ window.toInt

-- A live count that meets a recorded one again.
def Returns (recorded live : Int64) : Prop :=
  0 ≤ live.toInt ∧ (0 ≤ recorded.toInt → live = recorded)

theorem toInt_abs {x : Int64} (h : -2 ^ 63 < x.toInt) : x.abs.toInt = |x.toInt| := by
  have hsign : x.toBitVec.msb = decide (x.toInt < 0) := BitVec.msb_eq_toInt
  have habs : x.abs = if x.toInt < 0 then -x else x := by
    rw [Int64.abs, BitVec.abs, hsign]
    simp only [decide_eq_true_eq]
    split <;> rfl
  have hlt := x.toInt_lt
  rw [habs]
  split
  · rename_i hnegative
    rw [Int64.toInt_neg, abs_of_neg hnegative, Int.bmod_eq_of_le (by omega) (by omega)]
  · rename_i hpositive
    rw [abs_of_nonneg (not_lt.mp hpositive)]

-- The distance of two counts that are not negative fits into a word.
theorem toInt_distance {recorded live : Int64} (hrecorded : 0 ≤ recorded.toInt)
    (hlive : 0 ≤ live.toInt) :
    (live - recorded).abs.toInt = |live.toInt - recorded.toInt| := by
  have hltRecorded := recorded.toInt_lt
  have hltLive := live.toInt_lt
  have hsub : (live - recorded).toInt = live.toInt - recorded.toInt := by
    rw [Int64.toInt_sub, Int.bmod_eq_of_le (by omega) (by omega)]
  rw [toInt_abs (by omega), hsub]

theorem near_iff {recorded live : Int64} (hlive : 0 ≤ live.toInt) (window : Int64) :
    near recorded live window = true ↔ Within recorded live window := by
  rw [near, Within, Bool.or_eq_true, decide_eq_true_eq, decide_eq_true_eq, Int64.lt_iff_toInt_lt,
    Int64.le_iff_toInt_le]
  by_cases hsaid : recorded.toInt < 0
  · simp [hsaid]
  · rw [toInt_distance (not_lt.mp hsaid) hlive]
    rfl

theorem accepts_iff (record : HitCount) {localHits globalHits : Int64}
    (hlocal : 0 ≤ localHits.toInt) (hglobal : 0 ≤ globalHits.toInt)
    (localWindow globalWindow : Int64) :
    record.accepts localHits localWindow globalHits globalWindow = true ↔
      Within record.localHits localHits localWindow ∧
        Within record.globalHits globalHits globalWindow := by
  rw [accepts, Bool.and_eq_true, near_iff hlocal, near_iff hglobal]

theorem within_of_returns {recorded live window : Int64} (h : Returns recorded live)
    (hwindow : 0 ≤ window.toInt) : Within recorded live window := by
  by_cases hsaid : 0 ≤ recorded.toInt
  · right
    rw [h.2 hsaid, sub_self, abs_zero]
    exact hwindow
  · left
    exact not_le.mp hsaid

end HitCount

-- A point whose hits were counted from zero upwards.
def Point.Counted (point : Point) : Prop := 0 ≤ point.localHits.toInt ∧ 0 ≤ point.globalHits.toInt

namespace TrapPlan

theorem acceptsPoint_iff {plan : TrapPlan} {point : Point} (hpoint : point.Counted)
    {globalWindow localWindow : Int64} (hthread : plan.thread = none)
    (hhits : plan.hitCounts ≠ []) :
    plan.acceptsPoint point globalWindow localWindow = true ↔
      ∃ hit ∈ plan.hitCounts, HitCount.Within hit.localHits point.localHits localWindow ∧
        HitCount.Within hit.globalHits point.globalHits globalWindow := by
  simp [acceptsPoint, acceptsThread, acceptsHits, hthread, hhits,
    HitCount.accepts_iff _ hpoint.1 hpoint.2]

end TrapPlan

namespace PlanPoint

def hits (side : PlanPoint) : HitCount :=
  { localHits := side.localHits, globalHits := side.globalHits }

def key (side : PlanPoint) : String := TrapPlan.keyOf side.callee side.caller side.offset

-- A side without a star and with an offset of its own, which no other call site can meet.
def NamesOneSite (side : PlanPoint) : Prop :=
  '*' ∉ side.callee.toList ∧ '*' ∉ side.caller.toList ∧ 0 ≤ side.offset.toInt

instance : DecidablePred NamesOneSite := fun side =>
  inferInstanceAs (Decidable (_ ∧ _ ∧ 0 ≤ side.offset.toInt))

-- A point at the call site of a side.
def SiteOf (side : PlanPoint) (point : Point) : Prop :=
  point.callee = side.callee ∧ point.caller = side.caller ∧ point.offset = side.offset

-- A side whose names, read as patterns, match those of another.
def Matches (leader side : PlanPoint) : Prop :=
  Wildcard.StandsFor leader.callee.toList side.callee.toList ∧
    Wildcard.StandsFor leader.caller.toList side.caller.toList

section

variable {side other : PlanPoint} {repeats : Bool} {delayMs : UInt64}

theorem isExact_toPlan : (side.toPlan repeats delayMs).isExact = true ↔ side.NamesOneSite := by
  rw [TrapPlan.isExact_iff]
  simp [toPlan, NamesOneSite]

-- Sides with one key are of one kind.
theorem namesOneSite_congr (h : side.key = other.key) :
    side.NamesOneSite ↔ other.NamesOneSite := by
  obtain ⟨hnames, hoffset⟩ := TrapPlan.keyOf_eq_iff.mp h
  have hstar : '*' ∈ side.callee.toList ∨ '*' ∈ side.caller.toList ↔
      '*' ∈ other.callee.toList ∨ '*' ∈ other.caller.toList := by
    have hmem := congrArg ('*' ∈ ·) hnames
    simpa using hmem
  rw [NamesOneSite, NamesOneSite, hoffset, ← and_assoc, ← and_assoc, ← not_or, ← not_or, hstar]

-- Names without a semicolon are told from the key.
theorem siteOf_iff {point : Point} (hcallee : ';' ∉ side.callee.toList)
    (hcaller : ';' ∉ side.caller.toList) :
    side.SiteOf point ↔ TrapPlan.keyOf point.callee point.caller point.offset = side.key := by
  rw [key, TrapPlan.keyOf_eq_iff]
  constructor
  · rintro ⟨hcallee, hcaller, hoffset⟩
    rw [hcallee, hcaller, hoffset]
    exact ⟨rfl, rfl⟩
  · rintro ⟨hnames, hoffset⟩
    obtain ⟨hfront, -, hback⟩ :=
      (List.append_cons_inj_of_notMem hcallee hcaller).mp hnames.symm
    exact ⟨String.toList_inj.mp hfront.symm, String.toList_inj.mp hback.symm, hoffset⟩

end

end PlanPoint

namespace PlanFile

-- The sides of the well-formed lines of a text.
def sides (content : String) : List PlanPoint := pointsOf (report content).items

-- The first side with a key, which names what is planned for all sides with this key.
def leader? (content key : String) : Option PlanPoint :=
  (sides content).find? (·.key == key)

theorem mem_sides_iff {content : String} {side : PlanPoint} :
    side ∈ sides content ↔ ∃ line ∈ Text.lines content.toList, ∃ a b,
      PlanLine.ofChars line = .ok (some (a, b)) ∧ (side = a ∨ side = b) := by
  simp only [sides, pointsOf, List.mem_flatMap, report, LineReport.mem_items_ofText_iff]
  constructor
  · rintro ⟨⟨a, b⟩, ⟨line, hline, hread⟩, hm⟩
    exact ⟨line, hline, a, b, hread, by simpa using hm⟩
  · rintro ⟨line, hline, a, b, hread, hside⟩
    exact ⟨(a, b), ⟨line, hline, hread⟩, by simpa using hside⟩

-- A name stands on one line.
theorem feed_not_mem_names {content : String} {side : PlanPoint} (h : side ∈ sides content) :
    '\n' ∉ side.callee.toList ∧ '\n' ∉ side.caller.toList := by
  obtain ⟨line, hline, a, b, hread, hside⟩ := mem_sides_iff.mp h
  have hfeed := Text.feed_not_mem_of_mem_lines hline
  obtain ⟨-, left, right, hcut, hleft, hright⟩ := PlanLine.ofChars_ok hread
  obtain ⟨htrim, -⟩ := Text.splitOnce_eq_some hcut
  have hinside : ∀ text, text <:+: Text.trim line → PlanLine.side text = .ok side →
      '\n' ∉ side.callee.toList ∧ '\n' ∉ side.caller.toList := by
    intro text hin hread
    obtain ⟨-, -, -, rest, hnames⟩ := PlanPoint.ofChars_names (PlanLine.side_ok hread)
    have hclean : '\n' ∉ Text.trim text := fun hm => hfeed
      ((Text.trim_isInfix line).subset (hin.subset ((Text.trim_isInfix text).subset hm)))
    rw [hnames] at hclean
    simp only [List.mem_append, List.mem_cons, not_or] at hclean
    exact ⟨hclean.1, hclean.2.2.1⟩
  rcases hside with rfl | rfl
  · exact hinside left (htrim ▸ (List.prefix_append _ _).isInfix) hleft
  · refine hinside right (htrim ▸ ?_) hright
    exact ((List.suffix_append _ _).trans (List.suffix_append _ _)).isInfix

end PlanFile

section

variable {lines : List PlanLine} {delayMs : UInt64} {plan : TrapPlan} {side : PlanPoint}

theorem mem_plansFromPairs_iff :
    plan ∈ plansFromPairs lines delayMs ↔ ∃ side ∈ pointsOf lines,
      plan = side.toPlan (1 < (pointsOf lines).count side) delayMs := by
  simp only [plansFromPairs, List.mem_map, mem_distinct, eq_comm]

-- The plans with the key of a side are of its kind, so that they make one group.
theorem filter_inGroup_of_iff {exact : Bool} (h : exact = true ↔ side.NamesOneSite) :
    (plansFromPairs lines delayMs).filter (TrapPlan.inGroup exact side.key) =
      (plansFromPairs lines delayMs).filter (·.identityKey == side.key) := by
  apply List.filter_congr
  intro plan hm
  obtain ⟨other, -, rfl⟩ := mem_plansFromPairs_iff.mp hm
  rw [Bool.eq_iff_iff, TrapPlan.inGroup_iff, beq_iff_eq]
  refine ⟨fun hgroup => hgroup.2, fun hkey => ⟨?_, hkey⟩⟩
  rw [Bool.eq_iff_iff, PlanPoint.isExact_toPlan, h]
  exact PlanPoint.namesOneSite_congr hkey

theorem filter_inGroup_of_not_iff {exact : Bool} (h : ¬ (exact = true ↔ side.NamesOneSite)) :
    (plansFromPairs lines delayMs).filter (TrapPlan.inGroup exact side.key) = [] := by
  rw [List.filter_eq_nil_iff]
  intro plan hm hgroup
  obtain ⟨other, -, rfl⟩ := mem_plansFromPairs_iff.mp hm
  obtain ⟨hexact, hkey⟩ := TrapPlan.inGroup_iff.mp hgroup
  refine h ?_
  rw [← hexact, PlanPoint.isExact_toPlan]
  exact PlanPoint.namesOneSite_congr hkey

-- A group that is not empty has a side of its key and kind.
theorem side_of_merged {exact : Bool} {key : String}
    (h : TrapPlan.merged ((plansFromPairs lines delayMs).filter (TrapPlan.inGroup exact key)) =
      some plan) :
    ∃ side ∈ pointsOf lines, side.key = key ∧ (exact = true ↔ side.NamesOneSite) := by
  rw [TrapPlan.merged_eq, Option.map_eq_some_iff] at h
  obtain ⟨first, hfirst, -⟩ := h
  obtain ⟨hm, hgroup⟩ := List.mem_filter.mp (List.mem_of_head? hfirst)
  obtain ⟨side, hside, rfl⟩ := mem_plansFromPairs_iff.mp hm
  obtain ⟨hexact, hkey⟩ := TrapPlan.inGroup_iff.mp hgroup
  exact ⟨side, hside, hkey, by rw [← hexact, PlanPoint.isExact_toPlan]⟩

theorem fixedDelay_of_merged {keep : TrapPlan → Bool}
    (h : TrapPlan.merged ((plansFromPairs lines delayMs).filter keep) = some plan) :
    plan.fixedDelayMs = some delayMs := by
  rw [TrapPlan.merged_eq, Option.map_eq_some_iff] at h
  obtain ⟨first, hfirst, rfl⟩ := h
  have hm := List.mem_of_mem_filter (List.mem_of_head? hfirst)
  obtain ⟨side, -, rfl⟩ := mem_plansFromPairs_iff.mp hm
  rfl

end

namespace PlanFile

-- What a stored plan has of the sides with its key.
structure Gathers (content : String) (delayMs : UInt64) (key : String) (plan : TrapPlan) :
    Prop where
  thread : plan.thread = none
  delay : plan.fixedDelayMs = some delayMs
  hits : ∀ hit, hit ∈ plan.hitCounts ↔ ∃ side ∈ sides content, side.key = key ∧ side.hits = hit
  names : ∃ leader, leader? content key = some leader ∧ plan.callee = leader.callee ∧
    plan.caller = some leader.caller ∧ plan.offset = leader.offset

section

variable {content key : String} {delayMs : UInt64} {plan : TrapPlan} {side : PlanPoint}
  {store : PlanStore}

theorem mem_of_leader? {leader : PlanPoint} (h : leader? content key = some leader) :
    leader ∈ sides content ∧ leader.key = key :=
  ⟨List.mem_of_find?_eq_some h, by simpa using List.find?_some h⟩

theorem gathers_of_merged
    (h : TrapPlan.merged
      ((plansFromPairs (report content).items delayMs).filter (·.identityKey == key)) =
      some plan) : Gathers content delayMs key plan := by
  have hdelay := fixedDelay_of_merged h
  rw [TrapPlan.merged_eq, Option.map_eq_some_iff] at h
  obtain ⟨first, hfirst, rfl⟩ := h
  rw [List.head?_filter, plansFromPairs, List.find?_map, find?_distinct,
    Option.map_eq_some_iff] at hfirst
  obtain ⟨leader, hleader, rfl⟩ := hfirst
  refine ⟨rfl, hdelay, fun hit => ?_, leader, hleader, rfl, rfl, rfl⟩
  simp only [List.mem_flatMap, List.mem_filter, mem_plansFromPairs_iff, beq_iff_eq]
  constructor
  · rintro ⟨plan, ⟨⟨side, hside, rfl⟩, hkey⟩, hm⟩
    exact ⟨side, hside, hkey, (List.mem_singleton.mp hm).symm⟩
  · rintro ⟨side, hside, hkey, rfl⟩
    exact ⟨_, ⟨⟨side, hside, rfl⟩, hkey⟩, List.mem_singleton.mpr rfl⟩

theorem merged_of_mem_sides (h : side ∈ sides content) (delayMs : UInt64) :
    ∃ plan, TrapPlan.merged
      ((plansFromPairs (report content).items delayMs).filter (·.identityKey == side.key)) =
      some plan := by
  rw [TrapPlan.merged_eq, ← Option.isSome_iff_exists, Option.isSome_map, List.isSome_head?]
  apply List.ne_nil_of_mem (List.mem_filter.mpr ⟨mem_plansFromPairs_iff.mpr ⟨side, h, rfl⟩, _⟩)
  exact beq_self_eq_true _

theorem Gathers.acceptsPoint_iff (h : Gathers content delayMs key plan) {point : Point}
    (hpoint : point.Counted) (globalWindow localWindow : Int64) :
    plan.acceptsPoint point globalWindow localWindow = true ↔
      ∃ side ∈ sides content, side.key = key ∧
        HitCount.Within side.localHits point.localHits localWindow ∧
        HitCount.Within side.globalHits point.globalHits globalWindow := by
  obtain ⟨leader, hleader, -⟩ := h.names
  obtain ⟨hmem, hkey⟩ := mem_of_leader? hleader
  have hne := List.ne_nil_of_mem ((h.hits leader.hits).mpr ⟨leader, hmem, hkey, rfl⟩)
  rw [TrapPlan.acceptsPoint_iff hpoint h.thread hne]
  constructor
  · rintro ⟨hit, hhit, hwithin⟩
    obtain ⟨side, hside, hkey, rfl⟩ := (h.hits hit).mp hhit
    exact ⟨side, hside, hkey, hwithin⟩
  · rintro ⟨side, hside, hkey, hwithin⟩
    exact ⟨side.hits, (h.hits _).mpr ⟨side, hside, hkey, rfl⟩, hwithin⟩

-- A side that names one call site is stored under its key.
theorem exact_of_side
    (h : PlanStore.Grouped (plansFromPairs (report content).items delayMs) store)
    (hside : side ∈ sides content) (hone : side.NamesOneSite) :
    ∃ handle, store.exact.get? side.key = some handle ∧
      Gathers content delayMs side.key handle.plan := by
  obtain ⟨plan, hplan⟩ := merged_of_mem_sides hside delayMs
  have hexact := h.exact side.key
  rw [filter_inGroup_of_iff (by simp [hone]), hplan, Option.map_eq_some_iff] at hexact
  obtain ⟨handle, hfound, rfl⟩ := hexact
  exact ⟨handle, hfound, gathers_of_merged hplan⟩

-- Any other side is stored as a pattern, and no exact plan has its key.
theorem pattern_of_side
    (h : PlanStore.Grouped (plansFromPairs (report content).items delayMs) store)
    (hside : side ∈ sides content) (hmany : ¬ side.NamesOneSite) :
    store.exact.get? side.key = none ∧
      ∃ pattern ∈ store.patterns, pattern.Compiled ∧
        Gathers content delayMs side.key pattern.handle.plan := by
  obtain ⟨plan, hplan⟩ := merged_of_mem_sides hside delayMs
  have hexact := h.exact side.key
  rw [filter_inGroup_of_not_iff (by simp [hmany])] at hexact
  have hpattern := h.patterns side.key
  rw [filter_inGroup_of_iff (by simp [hmany]), hplan, Option.map_eq_some_iff] at hpattern
  obtain ⟨pattern, hfound, rfl⟩ := hpattern
  have hm := PlanStore.mem_patterns_of_pattern? hfound
  exact ⟨Option.map_eq_none_iff.mp hexact, pattern, hm, h.compiled _ hm, gathers_of_merged hplan⟩

-- The pattern with the names of a leader accepts what the leader matches.
theorem accepts_of_matches {pattern : PatternPlan} {leader : PlanPoint} {point : Point}
    {globalWindow localWindow : Int64} (hcompiled : pattern.Compiled)
    (hcallee : pattern.handle.plan.callee = leader.callee)
    (hcaller : pattern.handle.plan.caller = some leader.caller)
    (hoffset : pattern.handle.plan.offset = side.offset) (hmatches : leader.Matches side)
    (hsite : side.SiteOf point)
    (hpoint : pattern.handle.plan.acceptsPoint point globalWindow localWindow = true) :
    pattern.accepts point globalWindow localWindow = true := by
  obtain ⟨hcalleeText, hcallerText⟩ := hcompiled
  rw [hcaller, Option.map_eq_some_iff] at hcallerText
  obtain ⟨caller, hfound, hcallerText⟩ := hcallerText
  obtain ⟨hpointCallee, hpointCaller, hpointOffset⟩ := hsite
  simp only [PatternPlan.accepts, Bool.and_eq_true]
  refine ⟨⟨⟨?_, ?_⟩, ?_⟩, hpoint⟩
  · rw [Pattern.accepts_iff, hcalleeText, hcallee, hpointCallee]
    exact hmatches.1
  · rw [hfound, Option.all_some, Pattern.accepts_iff, hcallerText, hpointCaller]
    exact hmatches.2
  · simp [hoffset, hpointOffset]

-- Whichever pattern is found, it has the delay of the load.
theorem find?_of_accepts
    (h : PlanStore.Grouped (plansFromPairs (report content).items delayMs) store) {point : Point}
    {globalWindow localWindow : Int64}
    (hexact : store.exact.get? (TrapPlan.keyOf point.callee point.caller point.offset) = none)
    {pattern : PatternPlan} (hpattern : pattern ∈ store.patterns)
    (haccepts : pattern.accepts point globalWindow localWindow = true) :
    ∃ handle, store.find? point globalWindow localWindow = some handle ∧
      handle.plan.fixedDelayMs = some delayMs := by
  have hsome : (store.patterns.find? (·.accepts point globalWindow localWindow)).isSome :=
    List.find?_isSome.mpr ⟨pattern, hpattern, haccepts⟩
  obtain ⟨first, hfirst⟩ := Option.isSome_iff_exists.mp hsome
  refine ⟨first.handle, ?_, ?_⟩
  · simp only [PlanStore.find?, hexact, hfirst, Option.map_some]
  · have hgroup := h.patterns first.key
    rw [h.indexed.pattern?_of_mem (List.mem_of_find?_eq_some hfirst)] at hgroup
    exact fixedDelay_of_merged hgroup.symm

-- Whether the plan that a side is merged into is one that its own call site meets.
def Reaches (content : String) (side : PlanPoint) : Prop :=
  side.NamesOneSite ∨ ∀ leader, leader? content side.key = some leader → leader.Matches side

theorem find?_of_reaches
    (h : PlanStore.Grouped (plansFromPairs (report content).items delayMs) store)
    (hside : side ∈ sides content) (hreaches : Reaches content side) {point : Point}
    (hsite : side.SiteOf point) (hpoint : point.Counted) {globalWindow localWindow : Int64}
    (hlocal : HitCount.Within side.localHits point.localHits localWindow)
    (hglobal : HitCount.Within side.globalHits point.globalHits globalWindow) :
    ∃ handle, store.find? point globalWindow localWindow = some handle ∧
      handle.plan.fixedDelayMs = some delayMs := by
  have hkey : TrapPlan.keyOf point.callee point.caller point.offset = side.key := by
    rw [hsite.1, hsite.2.1, hsite.2.2]
    rfl
  by_cases hone : side.NamesOneSite
  · obtain ⟨handle, hfound, hgathers⟩ := exact_of_side h hside hone
    have haccepts := (hgathers.acceptsPoint_iff hpoint globalWindow localWindow).mpr
      ⟨side, hside, rfl, hlocal, hglobal⟩
    refine ⟨handle, ?_, hgathers.delay⟩
    rw [PlanStore.find?, hkey]
    simp only [hfound, haccepts, if_true]
  · obtain ⟨hexact, pattern, hfound, hcompiled, hgathers⟩ := pattern_of_side h hside hone
    obtain ⟨leader, hleader, hcalleeName, hcallerName, hoffsetName⟩ := hgathers.names
    have hsame : leader.offset = side.offset :=
      (TrapPlan.keyOf_eq_iff.mp (mem_of_leader? hleader).2).2
    have haccepts := (hgathers.acceptsPoint_iff hpoint globalWindow localWindow).mpr
      ⟨side, hside, rfl, hlocal, hglobal⟩
    rw [← hkey] at hexact
    exact find?_of_accepts h hexact hfound
      (accepts_of_matches hcompiled hcalleeName hcallerName (hoffsetName.trans hsame)
        (hreaches.resolve_left hone leader hleader) hsite haccepts)

-- Sides that share their key only with sides of their own names reach their plan.
theorem reaches_of_own_names (hside : side ∈ sides content)
    (hnames : ∀ other ∈ sides content, other.key = side.key →
      other.callee = side.callee ∧ other.caller = side.caller) : Reaches content side := by
  right
  intro leader hleader
  obtain ⟨hmem, hkey⟩ := mem_of_leader? hleader
  obtain ⟨hcallee, hcaller⟩ := hnames leader hmem hkey
  obtain ⟨hfeed, hfeed'⟩ := feed_not_mem_names hside
  rw [PlanPoint.Matches, hcallee, hcaller]
  exact ⟨Wildcard.standsFor_self hfeed, Wildcard.standsFor_self hfeed'⟩

-- Where every side names one call site and no name holds a semicolon, a plan is found for
-- exactly the recorded sites, at hits near enough to a recorded one.
theorem find?_isSome_iff
    (h : PlanStore.Grouped (plansFromPairs (report content).items delayMs) store)
    (hplain : ∀ side ∈ sides content,
      side.NamesOneSite ∧ ';' ∉ side.callee.toList ∧ ';' ∉ side.caller.toList)
    {point : Point} (hpoint : point.Counted) (globalWindow localWindow : Int64) :
    (store.find? point globalWindow localWindow).isSome ↔
      ∃ side ∈ sides content, side.SiteOf point ∧
        HitCount.Within side.localHits point.localHits localWindow ∧
        HitCount.Within side.globalHits point.globalHits globalWindow := by
  have hsite : ∀ side ∈ sides content, side.SiteOf point ↔
      TrapPlan.keyOf point.callee point.caller point.offset = side.key := fun side hm =>
    PlanPoint.siteOf_iff (hplain side hm).2.1 (hplain side hm).2.2
  by_cases hrecorded : ∃ side ∈ sides content,
      TrapPlan.keyOf point.callee point.caller point.offset = side.key
  · obtain ⟨side, hside, hkey⟩ := hrecorded
    obtain ⟨handle, hfound, hgathers⟩ := exact_of_side h hside (hplain side hside).1
    rw [PlanStore.find?, hkey]
    simp only [hfound, Option.isSome_ite, hgathers.acceptsPoint_iff hpoint]
    constructor
    · rintro ⟨other, hother, hsame, hwithin⟩
      exact ⟨other, hother, (hsite other hother).mpr (hkey.trans hsame.symm), hwithin⟩
    · rintro ⟨other, hother, hpoint, hwithin⟩
      exact ⟨other, hother, ((hsite other hother).mp hpoint).symm.trans hkey, hwithin⟩
  · have hexact : store.exact.get? (TrapPlan.keyOf point.callee point.caller point.offset) =
        none := by
      by_contra hsome
      obtain ⟨handle, hfound⟩ := Option.ne_none_iff_exists'.mp hsome
      have hgroup := h.exact (TrapPlan.keyOf point.callee point.caller point.offset)
      rw [hfound] at hgroup
      obtain ⟨side, hside, hkey, -⟩ := side_of_merged hgroup.symm
      exact hrecorded ⟨side, hside, hkey.symm⟩
    have hpatterns : ∀ pattern ∈ store.patterns,
        ¬ pattern.accepts point globalWindow localWindow = true := by
      intro pattern hm
      have hgroup := h.patterns pattern.key
      rw [h.indexed.pattern?_of_mem hm] at hgroup
      obtain ⟨side, hside, -, hkind⟩ := side_of_merged hgroup.symm
      cases hkind.mpr (hplain side hside).1
    rw [PlanStore.find?, hexact]
    simp only [List.find?_eq_none.mpr hpatterns, Option.map_none, Option.isSome_none,
      Bool.false_eq_true, false_iff]
    rintro ⟨side, hside, hpoint, -⟩
    exact hrecorded ⟨side, hside, (hsite side hside).mp hpoint⟩

-- The plans of a file, in a store of their own. A side is found at its own call site if it names
-- one call site, or if the first side with its key has names that match its own; a side that has
-- its key for itself always is. Where all sides name one call site, no other site is found.
theorem replay_finds {files : LoggedDisk} {path : String} {limit : RegexLimit}
    (hread : files.disk.read path = .ok content)
    (hstore : PlanStore.extend limit {} (load files path delayMs).1 = (none, store)) :
    (∀ side ∈ sides content, Reaches content side → ∀ point, side.SiteOf point →
      HitCount.Returns side.localHits point.localHits →
      HitCount.Returns side.globalHits point.globalHits →
      ∀ globalWindow localWindow : Int64, 0 ≤ globalWindow.toInt → 0 ≤ localWindow.toInt →
        ∃ handle, store.find? point globalWindow localWindow = some handle ∧
          handle.plan.fixedDelayMs = some delayMs) ∧
    (∀ side ∈ sides content,
      (∀ other ∈ sides content, other.key = side.key →
        other.callee = side.callee ∧ other.caller = side.caller) → Reaches content side) ∧
    ((∀ side ∈ sides content,
        side.NamesOneSite ∧ ';' ∉ side.callee.toList ∧ ';' ∉ side.caller.toList) →
      ∀ point, 0 ≤ point.localHits.toInt → 0 ≤ point.globalHits.toInt →
      ∀ globalWindow localWindow : Int64,
        (store.find? point globalWindow localWindow).isSome ↔
          ∃ side ∈ sides content, side.SiteOf point ∧
            HitCount.Within side.localHits point.localHits localWindow ∧
            HitCount.Within side.globalHits point.globalHits globalWindow) := by
  have hgrouped := PlanStore.grouped_empty.extend hstore
  rw [List.nil_append, load_of_text hread delayMs] at hgrouped
  refine ⟨?_, fun side hside hnames => reaches_of_own_names hside hnames, ?_⟩
  · intro side hside hreaches point hsite hlocal hglobal globalWindow localWindow hgw hlw
    exact find?_of_reaches hgrouped hside hreaches hsite ⟨hlocal.1, hglobal.1⟩
      (HitCount.within_of_returns hlocal hlw) (HitCount.within_of_returns hglobal hgw)
  · intro hplain point hlocal hglobal globalWindow localWindow
    exact find?_isSome_iff hgrouped hplain ⟨hlocal, hglobal⟩ globalWindow localWindow

end

-- A file with a comment, a line that is no plan, and two sides, of which the first is a pattern.
-- In the other file the sides have one key, since the semicolon moves from one name to the other.
namespace Sample

def mixed : String := "# old\n\nno plan\nAdd*|Main|1|7|2 ! Get|Main|3|7|4\n"

def shifted : String := "Add*;Main|Run|1|7|2 ! Add*|Main;Run|1|7|2\n"

def plain : String := "Add|Main|1|5|2 ! Get|Main|3|7|4\n"

def files (content : String) : LoggedDisk := { disk := .ofFiles [] [("plans.log", .text content)] }

def store (content : String) : PlanStore :=
  (PlanStore.extend Pattern.Sample.limit {} (load (files content) "plans.log" 100).1).2

theorem extend_store {content : String}
    (h : (PlanStore.extend Pattern.Sample.limit {}
      (load (files content) "plans.log" 100).1).1 = none) :
    PlanStore.extend Pattern.Sample.limit {} (load (files content) "plans.log" 100).1 =
      (none, store content) :=
  Prod.ext h (by rw [store])

def point (callee caller : String) (offset : Int32) (localHits : Int64) : Point :=
  { callee, caller, offset, thread := 9, localHits, globalHits := 7 }

end Sample

-- The pattern is found at a call site with its own name, and of the other file a site at a count
-- that is near enough.
theorem replay_finds_mixed :
    sides Sample.mixed = [⟨"Add*", "Main", 1, 7, 2⟩, ⟨"Get", "Main", 3, 7, 4⟩] ∧
      (∃ handle,
        (Sample.store Sample.mixed).find? (Sample.point "Add*" "Main" 1 2) 0 0 =
          some handle ∧ handle.plan.fixedDelayMs = some 100) ∧
      ((Sample.store Sample.plain).find? (Sample.point "Get" "Main" 3 5) 0 1).isSome ∧
      ¬ ((Sample.store Sample.plain).find? (Sample.point "Get" "Main" 3 6) 0 1).isSome := by
  have hmixed : sides Sample.mixed =
      [⟨"Add*", "Main", 1, 7, 2⟩, ⟨"Get", "Main", 3, 7, 4⟩] := by decide +kernel
  have hplain : sides Sample.plain =
      [⟨"Add", "Main", 1, 5, 2⟩, ⟨"Get", "Main", 3, 7, 4⟩] := by decide +kernel
  have hread : (Sample.files Sample.mixed).disk.read "plans.log" = .ok Sample.mixed := by
    decide +kernel
  obtain ⟨hfinds, hreaches, -⟩ := replay_finds hread (Sample.extend_store (by decide +kernel))
  have hread' : (Sample.files Sample.plain).disk.read "plans.log" = .ok Sample.plain := by
    decide +kernel
  obtain ⟨-, -, hexact⟩ := replay_finds hread' (Sample.extend_store (by decide +kernel))
  rw [hmixed] at hfinds hreaches
  rw [hplain] at hexact
  refine ⟨hmixed, ?_, ?_, ?_⟩
  · refine hfinds _ List.mem_cons_self (hreaches _ List.mem_cons_self (by decide +kernel)) _
      ⟨rfl, rfl, rfl⟩ ?_ ?_ 0 0 (by decide) (by decide)
    · unfold HitCount.Returns
      decide
    · unfold HitCount.Returns
      decide
  · refine (hexact (by decide +kernel) _ (by decide) (by decide) 0 1).mpr
      ⟨_, .tail _ (.head _), ⟨rfl, rfl, rfl⟩, ?_, ?_⟩
    · unfold HitCount.Within
      decide
    · unfold HitCount.Within
      decide
  · rw [hexact (by decide +kernel) _ (by decide) (by decide)]
    unfold PlanPoint.SiteOf HitCount.Within
    decide +kernel

-- Two sides with one key and different names share the plan of the first one, and the call site
-- of the second is not found.
theorem replay_misses_shifted :
    ¬ ∀ (limit : RegexLimit) (files : LoggedDisk) (path content : String) (delayMs : UInt64)
        (store : PlanStore),
      files.disk.read path = .ok content →
      PlanStore.extend limit {} (load files path delayMs).1 = (none, store) →
      ∀ side ∈ sides content, ∀ point, side.SiteOf point →
        HitCount.Returns side.localHits point.localHits →
        HitCount.Returns side.globalHits point.globalHits →
        ∀ globalWindow localWindow : Int64, 0 ≤ globalWindow.toInt → 0 ≤ localWindow.toInt →
          ∃ handle, store.find? point globalWindow localWindow = some handle ∧
            handle.plan.fixedDelayMs = some delayMs := by
  intro hclaim
  have hsides : sides Sample.shifted =
      [⟨"Add*;Main", "Run", 1, 7, 2⟩, ⟨"Add*", "Main;Run", 1, 7, 2⟩] := by decide +kernel
  obtain ⟨handle, hfound, -⟩ := hclaim Pattern.Sample.limit (Sample.files Sample.shifted)
    "plans.log" Sample.shifted 100 (Sample.store Sample.shifted) (by decide +kernel)
    (Sample.extend_store (by decide +kernel))
    ⟨"Add*", "Main;Run", 1, 7, 2⟩ (by rw [hsides]; exact .tail _ (.head _))
    (Sample.point "Add*" "Main;Run" 1 2) ⟨rfl, rfl, rfl⟩ (by unfold HitCount.Returns; decide)
    (by unfold HitCount.Returns; decide) 0 0 (by decide) (by decide)
  have hnone : ((Sample.store Sample.shifted).find?
      (Sample.point "Add*" "Main;Run" 1 2) 0 0).isSome = false := by decide +kernel
  rw [hfound] at hnone
  cases hnone

end PlanFile

end DelayInjection
