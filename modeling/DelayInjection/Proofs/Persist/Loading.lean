import DelayInjection.Proofs.Disk.Appending
import DelayInjection.Proofs.Persist.Distinct
import DelayInjection.Proofs.Persist.LineReport

-- What loading the files of a previous run gives, what the log is told of it, and what it leaves
-- on the disk.

namespace DelayInjection

section

variable {files : LoggedDisk} {path content : String} {e : FileError}

namespace LoggedDisk

theorem readOptional_of_text (h : files.disk.read path = .ok content) :
    files.readOptional path = (some content, files) := by
  rw [readOptional, h]

theorem readOptional_of_failure (h : files.disk.read path = .error e) :
    (files.readOptional path).1 = none ∧ (files.readOptional path).2.disk = files.disk := by
  rw [readOptional, h]
  cases e <;> exact ⟨rfl, rfl⟩

end LoggedDisk

namespace PlanFile

-- What the log is told of a plan file that was read and cannot be deleted.
def undeleted (disk : Disk) (path : String) : List LogLine :=
  ((disk.remove path).1.map fun e =>
    { level := .warn
      message := "Failed to delete plan file " ++ path ++ ": " ++ e.message : LogLine }).toList

theorem delete_eq (files : LoggedDisk) {content : String} (h : files.disk.read path = .ok content) :
    delete files path =
      { disk := (files.disk.remove path).2, log := files.log ++ undeleted files.disk path } := by
  obtain ⟨key, -, -, hremove⟩ := Disk.remove_of_read h
  rw [delete, undeleted, hremove]
  split <;> rename_i hattempt <;> split at hattempt <;> cases hattempt
  · simp [*]
  · simp [*, LoggedDisk.warn, LoggedDisk.write]

-- A text that was loaded is gone unless it cannot be deleted, and nothing is told of it but this
-- and the lines that were skipped.
theorem load_of_text (h : files.disk.read path = .ok content) (delayMs : UInt64) :
    load files path delayMs = (plansFromPairs (report content).items delayMs,
      { disk := (files.disk.remove path).2
        log := files.log ++ (report content).warnings "plan" path ++
          undeleted files.disk path }) := by
  rw [load, LoggedDisk.readOptional_of_text h]
  dsimp only
  rw [foldl_readLine]
  exact congrArg (Prod.mk _) (delete_eq _ h)

theorem load_of_failure (h : files.disk.read path = .error e) (delayMs : UInt64) :
    load files path delayMs = ([], (files.readOptional path).2) ∧
      (files.readOptional path).2.disk = files.disk := by
  obtain ⟨hnone, hdisk⟩ := LoggedDisk.readOptional_of_failure h
  refine ⟨?_, hdisk⟩
  unfold load
  split
  · rename_i hfound
    rw [hfound]
  · rename_i hfound
    rw [hfound] at hnone
    cases hnone

theorem disk_load (files : LoggedDisk) (path : String) (delayMs : UInt64) :
    (load files path delayMs).2.disk = files.disk ∨
      (load files path delayMs).2.disk = (files.disk.remove path).2 := by
  cases hread : files.disk.read path with
  | ok content =>
      rw [load_of_text hread delayMs]
      exact .inr rfl
  | error e =>
      obtain ⟨hload, hdisk⟩ := load_of_failure hread delayMs
      rw [hload]
      exact .inl hdisk

end PlanFile

namespace BugFile

-- The pairs of a text as a set.
def pairSet (content : String) : List LocationPair :=
  (report content).items.foldl (fun races pair => races.insert pair) []

theorem load_of_text (h : files.disk.read path = .ok content) :
    load files path = (pairSet content,
      { files with log := files.log ++ (report content).warnings "bug" path }) := by
  rw [load, LoggedDisk.readOptional_of_text h]
  exact foldl_readLine path files content

theorem load_of_failure (h : files.disk.read path = .error e) :
    load files path = ([], (files.readOptional path).2) := by
  obtain ⟨hnone, -⟩ := LoggedDisk.readOptional_of_failure h
  unfold load
  split
  · rename_i hfound
    rw [hfound]
  · rename_i hfound
    rw [hfound] at hnone
    cases hnone

-- The file stays.
theorem disk_load (files : LoggedDisk) (path : String) : (load files path).2.disk = files.disk := by
  cases hread : files.disk.read path with
  | ok content => rw [load_of_text hread]
  | error e =>
      rw [load_of_failure hread]
      exact (LoggedDisk.readOptional_of_failure hread).2

end BugFile

end

end DelayInjection
