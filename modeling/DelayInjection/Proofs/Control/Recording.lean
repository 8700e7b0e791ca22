import DelayInjection.Control.Recorder
import DelayInjection.Proofs.Control.Reports
import DelayInjection.Proofs.Disk.Changes
import DelayInjection.Proofs.Persist.Batching

-- What a recorder makes of the events of a run: what its sinks keep, and which files it writes.

namespace DelayInjection

namespace Event

def trap? : Event → Option Trap
  | .trapSet trap => some trap
  | _ => none

end Event

namespace Sink

-- A sink after some events: memory keeps them, the others only pass them on.
def after (events : List Event) : Sink → Sink
  | .memory report =>
      .memory
        { traps := report.traps ++ events.filterMap Event.trap?
          races := report.races ++ Event.reports events }
  | .log => .log
  | .file report => .file report

-- The file that a sink writes to.
def path? : Sink → Option String
  | .file report => some report.path
  | _ => none

theorem after_after (first second : List Event) (sink : Sink) :
    (sink.after first).after second = sink.after (first ++ second) := by
  cases sink with
  | log | file report => rfl
  | memory report => simp [after, Event.reports_append]

theorem after_nil (sink : Sink) : sink.after [] = sink := by
  cases sink with
  | log | file report => rfl
  | memory report => simp [after, Event.reports]

theorem path?_after (events : List Event) (sink : Sink) :
    (sink.after events).path? = sink.path? := by
  cases sink <;> rfl

theorem tellAll_sinks {tell : Sink → LoggedDisk → Sink × LoggedDisk} {heard : Sink → Sink}
    (h : ∀ sink files, (tell sink files).1 = heard sink) (sinks : List Sink)
    (files : LoggedDisk) : (tellAll tell sinks files).1 = sinks.map heard := by
  induction sinks generalizing files with
  | nil => rfl
  | cons sink rest ih => simp only [tellAll, h, ih, List.map_cons]

theorem raceFound_fst (trap : Trap) (racing : Point) (sink : Sink) (files : LoggedDisk) :
    (sink.raceFound trap racing files).1 = sink.after [.raceFound trap racing] := by
  cases sink with
  | log | file report => rfl
  | memory report => simp [raceFound, after, Event.reports, Event.report?, Event.trap?]

theorem trapSet_fst (trap : Trap) (sink : Sink) (files : LoggedDisk) :
    (sink.trapSet trap files).1 = sink.after [.trapSet trap] := by
  cases sink with
  | log | file report => rfl
  | memory report => simp [trapSet, after, Event.reports, Event.report?, Event.trap?]

end Sink

namespace PlanLog

theorem flush_path (log : PlanLog) (files : LoggedDisk) : (log.flush files).1.path = log.path := by
  unfold flush
  dsimp only
  split <;> rfl

theorem record_path (log : PlanLog) (line : String) (files : LoggedDisk) :
    (log.record line files).2.1.path = log.path := by
  unfold record
  split
  · rfl
  · dsimp only
    split
    · exact flush_path _ files
    · rfl

end PlanLog

namespace Recorder

theorem observe_sinks (recorder : Recorder) (event : Event) (files : LoggedDisk) :
    (recorder.observe event files).1.sinks = recorder.sinks.map (Sink.after [event]) := by
  have hsame : ∀ event : Event, event.report? = none → event.trap? = none →
      recorder.sinks.map (Sink.after [event]) = recorder.sinks := by
    intro event hr ht
    have hnil : Sink.after [event] = id := by
      funext sink
      rw [id, ← sink.after_nil]
      cases sink with
      | log | file report => rfl
      | memory report => simp [Sink.after, Event.reports, hr, ht]
    rw [hnil, List.map_id]
  cases event with
  | raceFound trap racing => exact Sink.tellAll_sinks (Sink.raceFound_fst trap racing) _ _
  | trapSet trap => exact Sink.tellAll_sinks (Sink.trapSet_fst trap) _ _
  | _ => exact (hsame _ rfl rfl).symm

theorem observe_bugFile (recorder : Recorder) (event : Event) (files : LoggedDisk) :
    (recorder.observe event files).1.bugFile = recorder.bugFile := by
  cases event <;> rfl

theorem observe_planPath (recorder : Recorder) (event : Event) (files : LoggedDisk) :
    (recorder.observe event files).1.planLog.path = recorder.planLog.path := by
  cases event with
  | dangerousPair earlier later => exact recorder.planLog.record_path _ _
  | _ => rfl

def reportPaths (recorder : Recorder) : List String := recorder.sinks.filterMap Sink.path?

theorem observe_reportPaths (recorder : Recorder) (event : Event) (files : LoggedDisk) :
    (recorder.observe event files).1.reportPaths = recorder.reportPaths := by
  rw [reportPaths, observe_sinks, List.filterMap_map]
  have hpath : Sink.path? ∘ Sink.after [event] = Sink.path? := by
    funext sink
    exact sink.path?_after [event]
  rw [hpath]
  rfl

-- The files that are written besides the bug file.
def otherPaths (recorder : Recorder) : List String :=
  recorder.planLog.path.toList ++ recorder.reportPaths

theorem observe_otherPaths (recorder : Recorder) (event : Event) (files : LoggedDisk) :
    (recorder.observe event files).1.otherPaths = recorder.otherPaths := by
  rw [otherPaths, observe_planPath, observe_reportPaths]
  rfl

end Recorder

section

open Disk

variable {paths : List String} {start : Disk} {files : LoggedDisk}

theorem LoggedDisk.changes_appendLines {path : String} (h : ChangesOnly paths start files.disk)
    (hm : path ∈ paths) (kind : String) (lines : List String) :
    ChangesOnly paths start (files.appendLines kind path lines).disk := by
  rw [LoggedDisk.disk_appendLines]
  exact h.trans ((appendBelow_changes _ path _).mono (by simpa using hm))

theorem ReportFile.changes_append {file : ReportFile} (h : ChangesOnly paths start files.disk)
    (hm : file.path ∈ paths) (text : String) :
    ChangesOnly paths start (file.append text files).disk := by
  have happended := h.trans
    ((append_changes files.disk file.path text).mono (by simpa using hm))
  unfold ReportFile.append
  cases hattempt : files.disk.append file.path text with
  | mk failure disk =>
      rw [hattempt] at happended
      cases failure with
      | none => exact happended
      | some e => exact h

namespace Sink

variable {sink : Sink}

theorem changes_raceFound (h : ChangesOnly paths start files.disk)
    (hm : ∀ path ∈ sink.path?, path ∈ paths) (trap : Trap) (racing : Point) :
    ChangesOnly paths start (sink.raceFound trap racing files).2.disk := by
  cases sink with
  | log | memory _ => exact h
  | file report =>
      simp only [raceFound, ReportFile.raceFound]
      split <;> exact ReportFile.changes_append h (hm _ rfl) _

theorem changes_trapSet (h : ChangesOnly paths start files.disk)
    (hm : ∀ path ∈ sink.path?, path ∈ paths) (trap : Trap) :
    ChangesOnly paths start (sink.trapSet trap files).2.disk := by
  cases sink with
  | log | memory _ => exact h
  | file report =>
      simp only [trapSet, ReportFile.trapSet]
      split
      · split <;> exact ReportFile.changes_append h (hm _ rfl) _
      · exact h

theorem changes_tellAll {tell : Sink → LoggedDisk → Sink × LoggedDisk} {sinks : List Sink}
    (h : ChangesOnly paths start files.disk)
    (htell : ∀ sink ∈ sinks, ∀ files : LoggedDisk, ChangesOnly paths start files.disk →
      ChangesOnly paths start (tell sink files).2.disk) :
    ChangesOnly paths start (tellAll tell sinks files).2.disk := by
  induction sinks generalizing files with
  | nil => exact h
  | cons sink rest ih =>
      exact ih (htell sink List.mem_cons_self files h)
        (fun sink hm => htell sink (List.mem_cons_of_mem _ hm))

end Sink

namespace PlanLog

theorem changes_flush {log : PlanLog} (h : ChangesOnly paths start files.disk)
    (hm : ∀ path ∈ log.path, path ∈ paths) :
    ChangesOnly paths start (log.flush files).2.disk := by
  unfold flush
  dsimp only
  split
  · exact h
  · exact h
  · rename_i path hpath _
    exact LoggedDisk.changes_appendLines h (hm path hpath) "plan" _

theorem changes_record {log : PlanLog} (h : ChangesOnly paths start files.disk)
    (hm : ∀ path ∈ log.path, path ∈ paths) (line : String) :
    ChangesOnly paths start (log.record line files).2.2.disk := by
  unfold record
  split
  · exact h
  · dsimp only
    split
    · exact changes_flush h hm
    · exact h

end PlanLog

end

namespace Recorder

open Disk

-- Only a confirmed race is written to the bug file.
theorem changes_observe (recorder : Recorder) {event : Event} (h : event.confirmed? = none)
    (files : LoggedDisk) :
    ChangesOnly recorder.otherPaths files.disk (recorder.observe event files).2.disk := by
  have hsink : ∀ sink ∈ recorder.sinks, ∀ path ∈ sink.path?, path ∈ recorder.otherPaths :=
    fun sink hm path hpath =>
      List.mem_append_right _ (List.mem_filterMap.mpr ⟨sink, hm, hpath⟩)
  have hplan : ∀ path ∈ recorder.planLog.path, path ∈ recorder.otherPaths := fun path hpath =>
    List.mem_append_left _ (Option.mem_toList.mpr hpath)
  have hself := ChangesOnly.refl recorder.otherPaths files.disk
  cases event with
  | raceConfirmed pair => cases h
  | raceFound trap racing =>
      exact Sink.changes_tellAll hself fun sink hm files hfiles =>
        Sink.changes_raceFound hfiles (hsink sink hm) trap racing
  | trapSet trap =>
      exact Sink.changes_tellAll hself fun sink hm files hfiles =>
        Sink.changes_trapSet hfiles (hsink sink hm) trap
  | dangerousPair earlier later =>
      refine PlanLog.changes_record ?_ hplan _
      exact hself
  | planMatched _ | pairPruned _ _ | duplicateRace _ _ | objectForgotten _ _ => exact hself

theorem changes_flush (recorder : Recorder) (files : LoggedDisk) :
    ChangesOnly recorder.otherPaths files.disk (recorder.flush files).2.disk :=
  PlanLog.changes_flush (.refl _ _) fun _ hpath =>
    List.mem_append_left _ (Option.mem_toList.mpr hpath)

theorem observeAll_cons (recorder : Recorder) (event : Event) (rest : List Event)
    (files : LoggedDisk) :
    recorder.observeAll (event :: rest) files =
      (recorder.observe event files).1.observeAll rest (recorder.observe event files).2 := rfl

theorem observeAll_sinks (recorder : Recorder) (events : List Event) (files : LoggedDisk) :
    (recorder.observeAll events files).1.sinks = recorder.sinks.map (Sink.after events) := by
  induction events generalizing recorder files with
  | nil =>
      have hnil : Sink.after [] = id := funext Sink.after_nil
      rw [hnil, List.map_id]
      rfl
  | cons event rest ih =>
      have hsinks : Sink.after rest ∘ Sink.after [event] = Sink.after (event :: rest) := by
        funext sink
        exact sink.after_after [event] rest
      rw [observeAll_cons, ih, observe_sinks, List.map_map, hsinks]

theorem observeAll_bugFile (recorder : Recorder) (events : List Event) (files : LoggedDisk) :
    (recorder.observeAll events files).1.bugFile = recorder.bugFile := by
  induction events generalizing recorder files with
  | nil => rfl
  | cons event rest ih => rw [observeAll_cons, ih, observe_bugFile]

theorem observeAll_otherPaths (recorder : Recorder) (events : List Event) (files : LoggedDisk) :
    (recorder.observeAll events files).1.otherPaths = recorder.otherPaths := by
  induction events generalizing recorder files with
  | nil => rfl
  | cons event rest ih => rw [observeAll_cons, ih, observe_otherPaths]

theorem changes_observeAll (recorder : Recorder) {events : List Event}
    (h : Event.confirmedPairs events = []) (files : LoggedDisk) :
    ChangesOnly recorder.otherPaths files.disk (recorder.observeAll events files).2.disk := by
  induction events generalizing recorder files with
  | nil => exact .refl _ _
  | cons event rest ih =>
      obtain ⟨hevent, hrest⟩ := List.forall_mem_cons.mp (List.filterMap_eq_nil_iff.mp h)
      have hlater := ih (recorder.observe event files).1 (List.filterMap_eq_nil_iff.mpr hrest)
        (recorder.observe event files).2
      rw [observe_otherPaths] at hlater
      exact (recorder.changes_observe hevent files).trans hlater

end Recorder

end DelayInjection
