import DelayInjection.Proofs.Detector
import DelayInjection.Proofs.Disk.Changes
import DelayInjection.Proofs.Pattern
import DelayInjection.Proofs.Persist.Blacklist

-- What a start that fails leaves on the disk. All checks of a configuration come before the files
-- of the previous run, except for the patterns of its plans and of the lock operations.

namespace DelayInjection

namespace RuntimeConfig

def planPath? (config : RuntimeConfig) : Option String :=
  (config.learned.getD {}).lastRunPlanFile.map config.resolveLogPath

def bugPath? (config : RuntimeConfig) : Option String :=
  (config.learned.getD {}).lastRunBugFile.map config.resolveLogPath

-- Where a process reports to.
def reportPath? (config : RuntimeConfig) (process : ProcessInfo) : Option String :=
  config.reportFile.map fun report =>
    ReportFile.pathFor (config.resolveLogPath report) process.executionId

end RuntimeConfig

theorem PlanFile.load_changes (files : LoggedDisk) (path : String) (delayMs : UInt64) :
    files.disk.ChangesOnly [path] (load files path delayMs).2.disk := by
  rcases disk_load files path delayMs with h | h <;> rw [h]
  · exact .refl [path] files.disk
  · exact files.disk.remove_changes path

namespace Detector

section

variable {config : RuntimeConfig} {logEvents : Bool} {extra : List Sink} {host : Host}
  {files files' : LoggedDisk} {e : ConfigError}

-- Whether a start gets as far as reading the plans of the previous run.
def readsPlans (limit : RegexLimit) (config : RuntimeConfig) : Bool :=
  config.validate.isOk && config.algorithm == .learned &&
    (compileGroups limit config.groups).isOk &&
    (addPlans limit {} (config.learned.getD {}).plans).isOk

-- The files that a failed start may leave otherwise than it found them.
def touched (config : RuntimeConfig) (host : Host) : List String :=
  (config.reportPath? host.process).toList ++
    if readsPlans host.limit config then config.planPath?.toList else []

-- The plan file as it is read on the way to a learned controller.
def loadPlans (config : RuntimeConfig) (files : LoggedDisk) : List TrapPlan × LoggedDisk :=
  match config.planPath? with
  | some path => PlanFile.load files path (config.learned.getD {}).dangerousDelayMs
  | none => ([], files)

theorem openReport_changes (config : RuntimeConfig) (process : ProcessInfo) (files : LoggedDisk) :
    files.disk.ChangesOnly (config.reportPath? process).toList
      (openReport config process files).2.disk := by
  unfold openReport RuntimeConfig.reportPath?
  cases config.reportFile with
  | none => exact .refl _ files.disk
  | some report =>
      have hchanges := files.disk.appendBelow_changes
        (ReportFile.pathFor (config.resolveLogPath report) process.executionId)
        (ReportFile.header config.reportFormat process)
      dsimp only [ReportFile.create]
      split <;> rename_i disk hcreate <;> rw [hcreate] at hchanges <;> exact hchanges

theorem disk_startLearned {classifier : Classifier} {sinks : List Sink}
    (h : startLearned config classifier host sinks files = (.error e, files')) :
    files'.disk = if (addPlans host.limit {} (config.learned.getD {}).plans).isOk then
      (loadPlans config files).2.disk else files.disk := by
  unfold startLearned at h
  dsimp only at h
  split at h
  · rename_i hrefused
    rw [hrefused]
    obtain ⟨-, rfl⟩ := Prod.mk.inj h
    rfl
  · rename_i plans hplans
    rw [hplans]
    split at h
    · obtain ⟨-, rfl⟩ := Prod.mk.inj h
      rfl
    · split at h
      · obtain ⟨-, rfl⟩ := Prod.mk.inj h
        -- reading the confirmed races changes nothing
        cases (config.learned.getD {}).lastRunBugFile with
        | none => rfl
        | some bugs => exact BugFile.disk_load _ (config.resolveLogPath bugs)
      · cases (Prod.mk.inj h).1

-- A failed start may have opened a report, and then it has read the plans or it has not.
theorem disk_of_failure (h : build config logEvents extra host files = (.error e, files')) :
    ∃ opened : LoggedDisk,
      files.disk.ChangesOnly (config.reportPath? host.process).toList opened.disk ∧
        files'.disk = if readsPlans host.limit config then (loadPlans config opened).2.disk
          else opened.disk := by
  unfold build at h
  split at h
  · rename_i hinvalid
    obtain ⟨-, rfl⟩ := Prod.mk.inj h
    exact ⟨files, .refl _ files.disk,
      by simp [readsPlans, hinvalid, Except.isOk, Except.toBool]⟩
  · rename_i hvalid
    split at h
    · cases (Prod.mk.inj h).1
    · rename_i hactive
      split at h
      · rename_i hgroups
        obtain ⟨-, rfl⟩ := Prod.mk.inj h
        exact ⟨files, .refl _ files.disk,
          by simp [readsPlans, hgroups, Except.isOk, Except.toBool]⟩
      · rename_i classifier hgroups
        refine ⟨(openReport config host.process files).2,
          openReport_changes config host.process files, ?_⟩
        by_cases hr : config.algorithm = .randomized
        · simp only [hr, if_true] at h
          cases (Prod.mk.inj h).1
        · have hlearned : config.algorithm = .learned := by
            cases ha : config.algorithm <;> simp_all
          simp only [hr, if_false] at h
          generalize hstart : startLearned _ _ _ _ _ = started at h
          obtain ⟨failure | started, left⟩ := started
          · obtain ⟨-, rfl⟩ := Prod.mk.inj h
            have hreads : readsPlans host.limit config =
                (addPlans host.limit {} (config.learned.getD {}).plans).isOk := by
              rw [readsPlans, hvalid, hlearned, hgroups]
              rfl
            rw [disk_startLearned hstart, hreads]
          · cases (Prod.mk.inj h).1

theorem loadPlans_changes (config : RuntimeConfig) (files : LoggedDisk) :
    files.disk.ChangesOnly config.planPath?.toList (loadPlans config files).2.disk := by
  unfold loadPlans
  cases config.planPath? with
  | none => exact .refl _ files.disk
  | some path => exact PlanFile.load_changes files path _

theorem changes_of_failure (h : build config logEvents extra host files = (.error e, files')) :
    files.disk.ChangesOnly (touched config host) files'.disk := by
  obtain ⟨opened, hopened, hdisk⟩ := disk_of_failure h
  rw [hdisk]
  unfold touched
  split
  · exact (hopened.mono (List.subset_append_left _ _)).trans
      ((loadPlans_changes config opened).mono (List.subset_append_right _ _))
  · exact hopened.mono (List.subset_append_left _ _)

-- The plans of the previous run are gone if they were read and could be deleted, and only then.
theorem plans_after_failure {path content : String}
    (h : build config logEvents extra host files = (.error e, files'))
    (hpath : config.planPath? = some path) (hread : files.disk.read path = .ok content)
    (hapart : files'.disk.Apart path (config.reportPath? host.process).toList) :
    (readsPlans host.limit config = true ∧ (files.disk.remove path).1 = none →
        files'.disk.hasPath path = false) ∧
      (¬ (readsPlans host.limit config = true ∧ (files.disk.remove path).1 = none) →
        files'.disk.read path = .ok content) := by
  obtain ⟨opened, hopened, hdisk⟩ := disk_of_failure h
  by_cases hreads : readsPlans host.limit config = true
  · rw [if_pos hreads] at hdisk
    have hkeeps := (loadPlans_changes config opened).directories
    rw [← hdisk] at hkeeps
    have hbefore := hapart.before hkeeps
    have hread' := hopened.read_eq hread hbefore
    rw [loadPlans, hpath] at hdisk
    dsimp only at hdisk
    rw [PlanFile.load_of_text hread'] at hdisk
    rw [hdisk, ← hopened.remove_eq hread hbefore]
    refine ⟨fun hdeletes => Disk.hasPath_remove hread' hdeletes.2, fun hstays => ?_⟩
    rw [Disk.remove_failed hread' fun hdeleted => hstays ⟨hreads, hdeleted⟩]
    exact hread'
  · rw [if_neg hreads] at hdisk
    refine ⟨fun hdeletes => absurd hdeletes.1 hreads, fun _ => ?_⟩
    rw [hdisk] at hapart ⊢
    exact hopened.read_eq hread hapart

-- The patterns of lock operations are the last thing that is checked.
theorem build_refused (hreads : readsPlans host.limit config = true) {pattern : String}
    (hlocks : PatternSet.compile host.limit (config.learned.getD {}).lockApis = .error pattern)
    (logEvents : Bool) (extra : List Sink) (files : LoggedDisk) :
    ∃ e files', build config logEvents extra host files = (.error e, files') := by
  obtain ⟨hchecked, -⟩ := Bool.and_eq_true_iff.mp hreads
  obtain ⟨hchecked, -⟩ := Bool.and_eq_true_iff.mp hchecked
  obtain ⟨-, halgorithm⟩ := Bool.and_eq_true_iff.mp hchecked
  have hlearned : config.algorithm = .learned := beq_iff_eq.mp halgorithm
  have hstart : ∀ (classifier : Classifier) (sinks : List Sink) (files : LoggedDisk),
      ∃ e files', startLearned config classifier host sinks files = (.error e, files') := by
    intro classifier sinks files
    unfold startLearned
    dsimp only
    split
    · exact ⟨_, _, rfl⟩
    · split
      · exact ⟨_, _, rfl⟩
      · rw [hlocks]
        exact ⟨_, _, rfl⟩
  unfold build
  split
  · exact ⟨_, _, rfl⟩
  · rw [if_neg (by rw [hlearned]; nofun)]
    split
    · exact ⟨_, _, rfl⟩
    · rename_i classifier _
      dsimp only
      rw [if_neg (by rw [hlearned]; nofun)]
      obtain ⟨e, files', hfails⟩ := hstart classifier
        ((if logEvents then [.log] else []) ++ (openReport config host.process files).1 ++ extra)
        (openReport config host.process files).2
      rw [hfails]
      exact ⟨e, files', rfl⟩

-- A start that fails changes no file but the report and the plan file. The plan file of the
-- previous run is lost if all checks pass that come before it is read and it can be deleted, and
-- otherwise it is as it was; the confirmed races are never lost.
theorem failed_start_keeps (h : build config logEvents extra host files = (.error e, files')) :
    files.disk.ChangesOnly (touched config host) files'.disk ∧
      (∀ path content, config.planPath? = some path → files.disk.read path = .ok content →
        files'.disk.Apart path (config.reportPath? host.process).toList →
          if readsPlans host.limit config ∧ (files.disk.remove path).1 = none then
            files'.disk.hasPath path = false
          else files'.disk.read path = .ok content) ∧
      ∀ path content, config.bugPath? = some path → files.disk.read path = .ok content →
        files'.disk.Apart path (touched config host) → files'.disk.read path = .ok content := by
  have hchanges := changes_of_failure h
  refine ⟨hchanges, fun path content hpath hread hapart => ?_,
    fun _ _ _ hread hapart => hchanges.read_eq hread hapart⟩
  obtain ⟨hgone, hstays⟩ := plans_after_failure h hpath hread hapart
  split
  · exact hgone ‹_›
  · exact hstays ‹_›

end

namespace Sample

def plans : String := "List.Add|Main|1|-1|-1 ! List.Get|Main|2|-1|-1"

def bugs : String := "List.Put|Main|4 List.Get|Main|3"

def stored : LoggedDisk :=
  { disk := .ofFiles []
      [("racetrap-preplans.log", .text plans), ("racetrap-allbugs.log", .text bugs)] }

theorem stars_refused {n : Nat} (h : 9000 < n) :
    PatternSet.compile Pattern.Sample.limit [Pattern.Sample.stars n] =
      .error (Pattern.Sample.stars n) := by
  rw [PatternSet.compile, Pattern.Sample.compile?_stars h]

def refused : RuntimeConfig := .ofLearned { lockApis := [Pattern.Sample.stars 15000] }

theorem refused_fails : ∃ e files',
    build refused true [] DelayInjection.Sample.host stored = (.error e, files') := by
  have hreads : readsPlans DelayInjection.Sample.host.limit refused = true := by decide +kernel
  have hlocks : PatternSet.compile DelayInjection.Sample.host.limit
      (refused.learned.getD {}).lockApis = .error (Pattern.Sample.stars 15000) :=
    stars_refused (by decide)
  exact build_refused hreads hlocks true [] stored

end Sample

theorem failed_start_keeps_bugs : ∃ e files',
    build Sample.refused true [] DelayInjection.Sample.host Sample.stored = (.error e, files') ∧
      files'.disk.read "racetrap-allbugs.log" = .ok Sample.bugs := by
  obtain ⟨e, files', hfails⟩ := Sample.refused_fails
  obtain ⟨hchanges, -, hbugs⟩ := failed_start_keeps hfails
  have htouched :
      touched Sample.refused DelayInjection.Sample.host = ["racetrap-preplans.log"] := by
    decide +kernel
  have hplan := Disk.resolveText_keeps hchanges.directories
    (show Sample.stored.disk.resolveText "racetrap-preplans.log" = .ok ["racetrap-preplans.log"] by
      decide +kernel)
  have hbug := Disk.resolveText_keeps hchanges.directories
    (show Sample.stored.disk.resolveText "racetrap-allbugs.log" = .ok ["racetrap-allbugs.log"] by
      decide +kernel)
  have hpath : Sample.refused.bugPath? = some "racetrap-allbugs.log" := by decide +kernel
  refine ⟨e, files', hfails, hbugs _ Sample.bugs hpath (by decide +kernel) ?_⟩
  rintro key hkey ⟨path, hm, hother⟩
  rw [htouched] at hm
  obtain rfl := List.mem_singleton.mp hm
  obtain rfl := Except.ok.inj (hkey.symm.trans hbug)
  exact absurd (Except.ok.inj (hother.symm.trans hplan)) (by decide)

theorem failed_start_loses_plans : ∃ e files',
    build Sample.refused true [] DelayInjection.Sample.host Sample.stored = (.error e, files') ∧
      Sample.stored.disk.read "racetrap-preplans.log" = .ok Sample.plans ∧
      files'.disk.hasPath "racetrap-preplans.log" = false := by
  obtain ⟨e, files', hfails⟩ := Sample.refused_fails
  have hread : Sample.stored.disk.read "racetrap-preplans.log" = .ok Sample.plans := by
    decide +kernel
  have hreads : readsPlans DelayInjection.Sample.host.limit Sample.refused = true ∧
      (Sample.stored.disk.remove "racetrap-preplans.log").1 = none := by decide +kernel
  have hpath : Sample.refused.planPath? = some "racetrap-preplans.log" := by decide +kernel
  have hreport : Sample.refused.reportPath? DelayInjection.Sample.host.process = none := rfl
  have hapart : files'.disk.Apart "racetrap-preplans.log"
      (Sample.refused.reportPath? DelayInjection.Sample.host.process).toList := by
    rw [hreport]
    rintro _ _ ⟨_, hm, -⟩
    cases hm
  exact ⟨e, files', hfails, hread, (plans_after_failure hfails hpath hread hapart).1 hreads⟩

end Detector

end DelayInjection
