import DelayInjection.Proofs.Persist.Batching
import DelayInjection.Proofs.Persist.Loading
import DelayInjection.Proofs.Persist.PlanLine

-- What one run hands over to the next: the pairs that it recorded, each once and in the order of
-- their first recording, as plans of the next run.

namespace DelayInjection

namespace PlanLine

-- A pair as a line.
def text (line : PlanLine) : String := format line.1.text line.2.text

-- Pairs whose line is read back also from among other lines.
structure HandedOver (line : PlanLine) : Prop where
  readsBack : ReadsBack line.1 line.2
  leftCallee : '\n' ∉ line.1.callee.toList
  leftCaller : '\n' ∉ line.1.caller.toList
  rightCallee : '\n' ∉ line.2.callee.toList
  rightCaller : '\n' ∉ line.2.caller.toList

theorem ofChars_text {line : PlanLine} (h : line.HandedOver) :
    ofChars line.text.toList = .ok (some line) :=
  parse_format h.readsBack

theorem text_injective {first second : PlanLine} (h : first.HandedOver) (h' : second.HandedOver)
    (he : first.text = second.text) : first = second := by
  have hread := ofChars_text h
  rw [he, ofChars_text h'] at hread
  exact (Option.some.inj (Except.ok.inj hread)).symm

theorem feed_not_mem_text {point : PlanPoint} (hcallee : '\n' ∉ point.callee.toList)
    (hcaller : '\n' ∉ point.caller.toList) : '\n' ∉ point.text.toList := by
  have hnumber : ∀ n : Int, '\n' ∉ Text.integer n := fun n hm =>
    Text.forall_mem_integer (P := (· ≠ '\n')) (by decide) (by decide) '\n' hm rfl
  rw [PlanPoint.toList_text, PlanPoint.numbers]
  simp [hcallee, hcaller, hnumber]

-- A line ends in a digit, so that no carriage return is taken from it.
theorem getLast?_text_ne (line : PlanLine) : line.text.toList.getLast? ≠ some '\r' := by
  intro hlast
  rw [text, toList_format, ← List.append_assoc] at hlast
  have hblank := getLast?_text _ line.2 '\r' hlast
  exact absurd hblank (by decide)

theorem lines_fileText {lines : List PlanLine} (h : ∀ line ∈ lines, line.HandedOver) :
    Text.lines (PlanLog.fileText (lines.map text)).toList = lines.map (·.text.toList) := by
  rw [PlanLog.toList_fileText, List.map_map, Text.lines_flatMap]
  · rfl
  intro chars hm
  obtain ⟨line, hline, rfl⟩ := List.mem_map.mp hm
  obtain ⟨-, hleft, hleft', hright, hright'⟩ := h line hline
  refine ⟨?_, line.getLast?_text_ne⟩
  rw [Function.comp_apply, text, toList_format]
  simp [feed_not_mem_text hleft hleft', feed_not_mem_text hright hright', separator]

end PlanLine

namespace PlanFile

-- A file of such lines gives back their pairs.
theorem report_fileText {lines : List PlanLine} (h : ∀ line ∈ lines, line.HandedOver) :
    report (PlanLog.fileText (lines.map PlanLine.text)) = { items := lines } :=
  LineReport.ofText_of_lines (fun line hm => PlanLine.ofChars_text (h line hm))
    (PlanLine.lines_fileText h)

-- A file without malformed lines gives the plans of its pairs, and nothing is told of it unless it
-- cannot be deleted. Otherwise it is gone afterwards.
theorem load_of_read {files : LoggedDisk} {path content : String} {lines : List PlanLine}
    (hread : files.disk.read path = .ok content) (hreport : report content = { items := lines })
    (delayMs : UInt64) :
    (load files path delayMs).1 = plansFromPairs lines delayMs ∧
      (load files path delayMs).2.log =
        (files.readOptional path).2.log ++ undeleted files.disk path ∧
      ((files.disk.remove path).1 = none →
        (load files path delayMs).2.disk.hasPath path = false) := by
  rw [load_of_text hread delayMs, hreport, LoggedDisk.readOptional_of_text hread]
  refine ⟨rfl, ?_, Disk.hasPath_remove hread⟩
  simp [LineReport.warnings]

-- A file that is not there is left as it is.
theorem load_of_missing {files : LoggedDisk} {path : String}
    (hmissing : files.disk.hasPath path = false) (delayMs : UInt64) :
    (load files path delayMs).1 = [] ∧
      (load files path delayMs).2.log = (files.readOptional path).2.log ∧
      (load files path delayMs).2.disk.hasPath path = false := by
  cases hread : files.disk.read path with
  | ok content => exact absurd hread (Disk.read_ne_of_missing hmissing content)
  | error e =>
      obtain ⟨hload, hdisk⟩ := load_of_failure hread delayMs
      rw [hload]
      refine ⟨rfl, rfl, ?_⟩
      rw [hdisk]
      exact hmissing

end PlanFile

namespace PlanLog

-- The pair that two points are recorded as.
def pairLine (pair : Point × Point) : PlanLine := (pair.1.toPlanPoint, pair.2.toPlanPoint)

-- What a run without an old plan file recorded, in whatever batches it was written, is what the
-- next run loads: the distinct pairs in the order of their first recording. No line has to be
-- skipped, and no file stays behind unless the one that was written cannot be deleted, which is all
-- that the log can be told.
theorem hand_over {path : String} {start files next : LoggedDisk} {pairs : List (Point × Point)}
    {log : PlanLog} (hstart : start.disk.Holds path none)
    (hpairs : ∀ pair ∈ pairs, (pairLine pair).HandedOver)
    (hrun : Kept path start
      (pairs.map fun pair => PlanLine.format pair.1.planText pair.2.planText) log files)
    (hshutdown : log.CanWrite files.disk)
    (hnext : (log.flush files).2.disk.SameFile next.disk path) (delayMs : UInt64) :
    let loaded := PlanFile.load next path delayMs
    loaded.1 = plansFromPairs (distinct (pairs.map pairLine)) delayMs ∧
      loaded.2.log = (next.readOptional path).2.log ++
        (if pairs = [] then [] else PlanFile.undeleted next.disk path) ∧
      ((pairs ≠ [] → (next.disk.remove path).1 = none) →
        loaded.2.disk.hasPath path = false) := by
  have htexts : (pairs.map fun pair => PlanLine.format pair.1.planText pair.2.planText) =
      (pairs.map pairLine).map PlanLine.text := by
    rw [List.map_map]
    rfl
  have hlines : ∀ line ∈ pairs.map pairLine, line.HandedOver := by
    intro line hm
    obtain ⟨pair, hpair, rfl⟩ := List.mem_map.mp hm
    exact hpairs pair hpair
  rw [htexts] at hrun
  have hholds := (hnext _).mp (hrun.flushed hstart hshutdown)
  rw [distinct_map fun a ha b hb => PlanLine.text_injective (hlines a ha) (hlines b hb)] at hholds
  generalize hrecorded : pairs.map pairLine = recorded at hlines hholds ⊢
  have hdistinct : ∀ line ∈ distinct recorded, line.HandedOver := fun line hm =>
    hlines line (mem_distinct.mp hm)
  cases hcase : distinct recorded with
  | nil =>
      -- nothing was recorded, so that there is still no file
      rw [hcase] at hholds
      have hnone : pairs = [] := by
        cases pairs with
        | nil => rfl
        | cons pair rest =>
            have hm : pairLine pair ∈ distinct recorded :=
              mem_distinct.mpr (hrecorded ▸ List.mem_cons_self)
            rw [hcase] at hm
            cases hm
      obtain ⟨hloaded, hlog, hgone⟩ :=
        PlanFile.load_of_missing (Disk.hasPath_of_holds_none hholds) delayMs
      rw [if_pos hnone, List.append_nil]
      exact ⟨hloaded, hlog, fun _ => hgone⟩
  | cons line rest =>
      rw [hcase] at hholds hdistinct
      have hread : next.disk.read path = .ok (fileText ((line :: rest).map PlanLine.text)) := by
        rw [List.map_cons, contentAfter, Option.getD_none, String.empty_append] at hholds
        · exact hholds
        · exact List.cons_ne_nil _ _
      have hsome : pairs ≠ [] := by
        rintro rfl
        rw [← hrecorded] at hcase
        cases hcase
      obtain ⟨hloaded, hlog, hgone⟩ :=
        PlanFile.load_of_read hread (PlanFile.report_fileText hdistinct) delayMs
      rw [if_neg hsome]
      exact ⟨hloaded, hlog, fun hdeleted => hgone (hdeleted hsome)⟩

end PlanLog

-- Two pairs in two batches, the first of them recorded twice. The second pair names a callee that
-- would be a comment, and a separator, had it been on the left.
namespace Sample

def added : Point :=
  { callee := "List.Add", caller := "Main", offset := 1, thread := 1, globalHits := 5,
    localHits := 2 }

def got : Point :=
  { callee := "List.Get", caller := "Main", offset := 2, thread := 2, globalHits := 7,
    localHits := 3 }

def odd : Point :=
  { callee := "#List ! x", caller := "", offset := -3, thread := 2, globalHits := 1 }

def firstLine : String := PlanLine.format added.planText got.planText

def secondLine : String := PlanLine.format got.planText odd.planText

def firstRecorded : Bool × PlanLog × LoggedDisk :=
  ({ path := some "logs/plan.log" } : PlanLog).record firstLine {}

def againRecorded : Bool × PlanLog × LoggedDisk :=
  firstRecorded.2.1.intervalPasses.record firstLine firstRecorded.2.2

def firstFlushed : PlanLog × LoggedDisk := againRecorded.2.1.flush againRecorded.2.2

def secondRecorded : Bool × PlanLog × LoggedDisk :=
  firstFlushed.1.record secondLine firstFlushed.2

theorem kept : PlanLog.Kept "logs/plan.log" {} [firstLine, firstLine, secondLine]
    secondRecorded.2.1 secondRecorded.2.2 := by
  have hfirst : PlanLog.Kept "logs/plan.log" {} [firstLine] firstRecorded.2.1 firstRecorded.2.2 :=
    .record _ .start (by unfold PlanLog.CanWrite; decide +kernel)
  have hagain : PlanLog.Kept "logs/plan.log" {} [firstLine, firstLine] againRecorded.2.1
      againRecorded.2.2 :=
    .record _ hfirst.intervalPasses (by unfold PlanLog.CanWrite; decide +kernel)
  have hflushed : PlanLog.Kept "logs/plan.log" {} [firstLine, firstLine] firstFlushed.1
      firstFlushed.2 :=
    .flush hagain (by unfold PlanLog.CanWrite; decide +kernel)
  exact .record _ hflushed (by unfold PlanLog.CanWrite; decide +kernel)

theorem handedOver :
    ∀ pair ∈ [(added, got), (added, got), (got, odd)], (PlanLog.pairLine pair).HandedOver := by
  intro pair hm
  have hread :
      PlanLine.parse (PlanLog.pairLine pair).text = .ok (some (PlanLog.pairLine pair)) := by
    revert pair
    decide +kernel
  have hfeeds : '\n' ∉ (PlanLog.pairLine pair).1.callee.toList ∧
      '\n' ∉ (PlanLog.pairLine pair).1.caller.toList ∧
      '\n' ∉ (PlanLog.pairLine pair).2.callee.toList ∧
      '\n' ∉ (PlanLog.pairLine pair).2.caller.toList := by
    revert pair
    decide +kernel
  obtain ⟨hleft, hleft', hright, hright'⟩ := hfeeds
  exact ⟨PlanLine.readsBack_of_parse hread, hleft, hleft', hright, hright'⟩

end Sample

namespace PlanLog

-- Of the three points that are planned, the one that both pairs share is trapped repeatedly.
theorem hand_over_of_two :
    Sample.secondRecorded.2.1.pending = [Sample.secondLine] ∧
      Sample.secondRecorded.2.2.disk.read "logs/plan.log" =
        .ok "List.Add|Main|1|5|2 ! List.Get|Main|2|7|3\n" ∧
      let loaded := PlanFile.load (Sample.secondRecorded.2.1.flush Sample.secondRecorded.2.2).2
        "logs/plan.log" 100
      loaded.1.map (fun plan => (plan.callee, plan.hitCounts, plan.repeats)) =
          [("List.Add", [{ localHits := 2, globalHits := 5 }], false),
            ("List.Get", [{ localHits := 3, globalHits := 7 }], true),
            ("#List ! x", [{ localHits := 0, globalHits := 1 }], false)] ∧
        loaded.2.log = [] ∧ loaded.2.disk.hasPath "logs/plan.log" = false := by
  obtain ⟨hloaded, hlog, hgone⟩ := hand_over (by rfl) Sample.handedOver Sample.kept
    (by unfold CanWrite; decide +kernel) (fun _ => Iff.rfl) 100
  refine ⟨by decide +kernel, by decide +kernel, ?_, ?_, hgone fun _ => by decide +kernel⟩
  · rw [hloaded]
    decide +kernel
  · rw [hlog]
    decide +kernel

end PlanLog

end DelayInjection
