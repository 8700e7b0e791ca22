import DelayInjection.Persist.PlanLog
import DelayInjection.Proofs.Disk.Appending
import DelayInjection.Proofs.Persist.Distinct

-- The plan file that a run writes for the next one. In what batches its lines are written does
-- not show in it: it holds every line once, in the order in which they were first recorded.

namespace DelayInjection

theorem LoggedDisk.disk_appendLines (files : LoggedDisk) (kind path : String)
    (lines : List String) :
    (files.appendLines kind path lines).disk = (files.disk.appendLines path lines).2 := by
  unfold LoggedDisk.appendLines
  split
  · rename_i hattempt
    rw [hattempt]
  · rename_i hattempt
    rw [hattempt]
    rfl

namespace PlanLog

-- Lines as they stand in a file.
def fileText (lines : List String) : String := String.join (lines.map (· ++ "\n"))

-- What lies at a path after lines were written to what was there before.
def contentAfter (previous? : Option String) : List String → Option String
  | [] => previous?
  | lines => some (previous?.getD "" ++ fileText lines)

theorem fileText_append (first second : List String) :
    fileText (first ++ second) = fileText first ++ fileText second := by
  simp [fileText, String.join_append]

theorem toList_fileText (lines : List String) :
    (fileText lines).toList = (lines.map (·.toList)).flatMap (· ++ ['\n']) := by
  induction lines with
  | nil => rfl
  | cons line rest ih =>
      rw [← List.singleton_append, fileText_append, String.toList_append, ih]
      simp [fileText]

theorem contentAfter_append (previous? : Option String) (first : List String)
    {second : List String} (h : second ≠ []) :
    contentAfter previous? (first ++ second) =
      some ((contentAfter previous? first).getD "" ++ fileText second) := by
  obtain ⟨line, rest, rfl⟩ := List.exists_cons_of_ne_nil h
  cases first with
  | nil => rfl
  | cons other others =>
      rw [List.cons_append, contentAfter, contentAfter, Option.getD_some, ← List.cons_append,
        fileText_append, String.append_assoc]
      · simp
      · simp

-- The text that a file has then; a file that is missing has none.
theorem getD_contentAfter (previous? : Option String) (lines : List String) :
    (contentAfter previous? lines).getD "" = previous?.getD "" ++ fileText lines := by
  cases lines with
  | nil => exact (String.append_empty).symm
  | cons line rest => rfl

-- What is known of a file goes on to hold while lines are appended to it.
def Grows (path : String) (Holds : Disk → List String → Prop) : Prop :=
  ∀ {disk : Disk} {written lines : List String}, Holds disk written → lines ≠ [] →
    (disk.appendLines path lines).1 = none →
      Holds (disk.appendLines path lines).2 (written ++ lines)

theorem grows_holds (path : String) (previous? : Option String) :
    Grows path fun disk written => disk.Holds path (contentAfter previous? written) := by
  intro disk written lines hwritten hlines hwrite
  rw [contentAfter_append _ _ hlines]
  exact hwritten.appendBelow (Prod.ext hwrite rfl)

theorem holds_appendLines {path : String} {previous? : Option String} {files : LoggedDisk}
    {written lines : List String}
    (hwritten : files.disk.Holds path (contentAfter previous? written)) (hlines : lines ≠ [])
    (hwrite : (files.disk.appendLines path lines).1 = none) (kind : String) :
    (files.appendLines kind path lines).disk.Holds path
      (contentAfter previous? (written ++ lines)) := by
  rw [LoggedDisk.disk_appendLines]
  exact grows_holds path previous? hwritten hlines hwrite

-- Whether the lines that wait can be written.
def CanWrite (log : PlanLog) (disk : Disk) : Prop :=
  ∀ path ∈ log.path, log.pending ≠ [] → (disk.appendLines path log.pending).1 = none

-- How a plan log and the disk come to be in a run whose writes succeed: lines are recorded, the
-- interval passes and lines are flushed in any order, and meanwhile anything may happen to the
-- disk that does not touch the plan file.
inductive Kept (path : String) (start : LoggedDisk) : List String → PlanLog → LoggedDisk → Prop
  | start : Kept path start [] { path := some path } start
  | record {recorded : List String} {log : PlanLog} {files : LoggedDisk} (line : String)
      (h : Kept path start recorded log files)
      (writes : line ∉ log.seen → log.intervalOver = true →
        CanWrite { log with pending := log.pending ++ [line] } files.disk) :
      Kept path start (recorded ++ [line]) (log.record line files).2.1 (log.record line files).2.2
  | intervalPasses {recorded : List String} {log : PlanLog} {files : LoggedDisk}
      (h : Kept path start recorded log files) : Kept path start recorded log.intervalPasses files
  | flush {recorded : List String} {log : PlanLog} {files : LoggedDisk}
      (h : Kept path start recorded log files) (writes : log.CanWrite files.disk) :
      Kept path start recorded (log.flush files).1 (log.flush files).2
  | meanwhile {recorded : List String} {log : PlanLog} {files : LoggedDisk} (changed : LoggedDisk)
      (h : Kept path start recorded log files) (same : files.disk.SameFile changed.disk path) :
      Kept path start recorded log changed

-- The lines that were recorded are in the file or wait for it, in the order of their first
-- recording. What the file holds once some lines are written is left open.
structure Batched (Holds : Disk → List String → Prop) (path : String) (recorded : List String)
    (log : PlanLog) (disk : Disk) : Prop where
  file : log.path = some path
  seen : log.seen = distinct recorded
  written : ∃ written, log.seen = written ++ log.pending ∧ Holds disk written

section

variable {Holds : Disk → List String → Prop} {path : String} {recorded : List String}
  {log : PlanLog} {files : LoggedDisk}

-- A flush that can write leaves nothing to wait.
theorem flush_holds (hgrows : Grows path Holds) {written : List String}
    (hpath : log.path = some path) (hwritten : Holds files.disk written)
    (hwrite : log.CanWrite files.disk) :
    (log.flush files).1 = { log with pending := [], intervalOver := false } ∧
      Holds (log.flush files).2.disk (written ++ log.pending) := by
  unfold flush
  dsimp only
  split
  · rename_i hpending
    rw [hpending, List.append_nil]
    exact ⟨rfl, hwritten⟩
  · rename_i hnone _
    rw [hpath] at hnone
    cases hnone
  · rename_i found hfound hlines
    obtain rfl := Option.some.inj (hpath.symm.trans hfound)
    have hpending : log.pending ≠ [] := hlines
    rw [LoggedDisk.disk_appendLines]
    exact ⟨rfl, hgrows hwritten hpending (hwrite path hpath hpending)⟩

theorem Batched.flush (hgrows : Grows path Holds) (h : Batched Holds path recorded log files.disk)
    (hwrite : log.CanWrite files.disk) :
    Batched Holds path recorded (log.flush files).1 (log.flush files).2.disk := by
  obtain ⟨written, hseen, hholds⟩ := h.written
  obtain ⟨hlog, hflushed⟩ := flush_holds hgrows h.file hholds hwrite
  rw [hlog]
  refine ⟨h.file, h.seen, written ++ log.pending, ?_, hflushed⟩
  rw [List.append_nil]
  exact hseen

-- A new line waits behind the others until its batch is written.
theorem Batched.queue (h : Batched Holds path recorded log files.disk) {line : String}
    (hnew : line ∉ log.seen) :
    Batched Holds path (recorded ++ [line])
      { log with pending := log.pending ++ [line], seen := log.seen ++ [line] } files.disk := by
  obtain ⟨written, hseen, hholds⟩ := h.written
  rw [h.seen, mem_distinct] at hnew
  refine ⟨h.file, ?_, written, ?_, hholds⟩
  · rw [distinct_concat, if_neg hnew, h.seen]
  · rw [hseen, List.append_assoc]

theorem Batched.record (hgrows : Grows path Holds)
    (h : Batched Holds path recorded log files.disk) (line : String)
    (hwrite : line ∉ log.seen → log.intervalOver = true →
      CanWrite { log with pending := log.pending ++ [line] } files.disk) :
    Batched Holds path (recorded ++ [line]) (log.record line files).2.1
      (log.record line files).2.2.disk := by
  unfold PlanLog.record
  by_cases hold : line ∈ log.seen
  · rw [if_pos hold]
    refine ⟨h.file, ?_, h.written⟩
    rw [distinct_concat, if_pos (mem_distinct.mp (h.seen ▸ hold)), h.seen]
  · rw [if_neg hold]
    dsimp only
    split
    · rename_i hover
      exact (h.queue hold).flush hgrows (hwrite hold hover)
    · exact h.queue hold

-- After a flush that can write, all lines that were recorded are in the file.
theorem Batched.flushed (hgrows : Grows path Holds)
    (h : Batched Holds path recorded log files.disk) (hwrite : log.CanWrite files.disk) :
    (log.flush files).1.pending = [] ∧ Holds (log.flush files).2.disk (distinct recorded) := by
  obtain ⟨written, hseen, hholds⟩ := h.written
  obtain ⟨hlog, hflushed⟩ := flush_holds hgrows h.file hholds hwrite
  rw [hlog, ← h.seen, hseen]
  exact ⟨rfl, hflushed⟩

-- Whatever the timing, the file and the lines that wait are the lines recorded so far.
theorem Kept.batched {start : LoggedDisk} {previous? : Option String}
    (h : Kept path start recorded log files) (hstart : start.disk.Holds path previous?) :
    Batched (fun disk written => disk.Holds path (contentAfter previous? written)) path recorded
      log files.disk := by
  induction h with
  | start => exact ⟨rfl, rfl, [], rfl, hstart⟩
  | record line _ writes ih => exact ih.record (grows_holds path previous?) line writes
  | intervalPasses _ ih => exact ⟨ih.file, ih.seen, ih.written⟩
  | flush _ writes ih => exact ih.flush (grows_holds path previous?) writes
  | meanwhile changed _ same ih =>
      obtain ⟨written, hseen, hholds⟩ := ih.written
      exact ⟨ih.file, ih.seen, written, hseen, (same _).mp hholds⟩

-- After a last flush the file holds exactly the distinct lines behind what it held before.
theorem Kept.flushed {start : LoggedDisk} {previous? : Option String}
    (h : Kept path start recorded log files) (hstart : start.disk.Holds path previous?)
    (hwrite : log.CanWrite files.disk) :
    (log.flush files).2.disk.Holds path (contentAfter previous? (distinct recorded)) :=
  ((h.batched hstart).flushed (grows_holds path previous?) hwrite).2

end

end PlanLog

end DelayInjection
