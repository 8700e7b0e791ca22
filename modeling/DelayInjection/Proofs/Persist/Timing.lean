import DelayInjection.Proofs.Disk.Bytes
import DelayInjection.Proofs.Persist.Batching

-- A plan log in use: lines are recorded and flushed, and between the calls the flush interval
-- passes or does not. When that happens is not to be seen in the file afterwards, whatever bytes
-- were in it before.

namespace DelayInjection.PlanLog

instance (log : PlanLog) (disk : Disk) : Decidable (log.CanWrite disk) :=
  inferInstanceAs (Decidable (∀ path ∈ log.path, _))

-- The bytes of a file after lines were written to it; a missing file is made with the first one.
def bytesAfter (previous? : Option (List UInt8)) : List String → Option (List UInt8)
  | [] => previous?
  | lines => some (previous?.getD [] ++ (fileText lines).toUTF8.toList)

theorem bytesAfter_append (previous? : Option (List UInt8)) (first : List String)
    {second : List String} (h : second ≠ []) :
    bytesAfter previous? (first ++ second) =
      some ((bytesAfter previous? first).getD [] ++ (fileText second).toUTF8.toList) := by
  obtain ⟨line, rest, rfl⟩ := List.exists_cons_of_ne_nil h
  cases first with
  | nil => rfl
  | cons other others =>
      rw [List.cons_append, bytesAfter, bytesAfter, Option.getD_some, ← List.cons_append,
        fileText_append, toUTF8_append, List.append_assoc]
      · simp
      · simp

theorem grows_bytes (path : String) (previous? : Option (List UInt8)) :
    Grows path fun disk written => disk.bytesAt? path = bytesAfter previous? written := by
  intro disk written lines hwritten hlines hwrite
  have happend : disk.appendBelow path (fileText lines) =
      (none, (disk.appendLines path lines).2) := Prod.ext hwrite rfl
  rw [Disk.bytesAt?_appendBelow happend, hwritten, bytesAfter_append _ _ hlines]

-- What happens to a plan log: the calls, and time between them.
inductive Step
  | record (line : String)
  | intervalPasses
  | flush

def Step.line? : Step → Option String
  | .record line => some line
  | .intervalPasses => none
  | .flush => none

-- The lines that are recorded, as often as they are.
def linesOf (steps : List Step) : List String := steps.filterMap Step.line?

-- A plan log with its file, and what it answered to each line so far.
structure Session where
  log : PlanLog
  files : LoggedDisk
  answers : List Bool := []

namespace Session

def start (path : String) (files : LoggedDisk) : Session := { log := { path := some path }, files }

def after (session : Session) : Step → Session
  | .record line =>
      let (answer, log, files) := session.log.record line session.files
      { log, files, answers := session.answers ++ [answer] }
  | .intervalPasses => { session with log := session.log.intervalPasses }
  | .flush =>
      let (log, files) := session.log.flush session.files
      { session with log, files }

def run (session : Session) (steps : List Step) : Session := steps.foldl after session

-- Whether the append that a step makes, if it makes one, succeeds.
def Writes (session : Session) : Step → Prop
  | .record line => line ∉ session.log.seen → session.log.intervalOver = true →
      CanWrite { session.log with pending := session.log.pending ++ [line] } session.files.disk
  | .intervalPasses => True
  | .flush => session.log.CanWrite session.files.disk

instance (session : Session) : DecidablePred session.Writes := fun step =>
  match step with
  | .record _ => inferInstanceAs (Decidable (_ → _ → _))
  | .intervalPasses => inferInstanceAs (Decidable True)
  | .flush => inferInstanceAs (Decidable (session.log.CanWrite session.files.disk))

-- Whether all appends of a run succeed.
def AllWritten (session : Session) : List Step → Prop
  | [] => True
  | step :: rest => session.Writes step ∧ (session.after step).AllWritten rest

def decideAllWritten (session : Session) :
    (steps : List Step) → Decidable (session.AllWritten steps)
  | [] => inferInstanceAs (Decidable True)
  | step :: rest =>
      have := decideAllWritten (session.after step) rest
      inferInstanceAs (Decidable (session.Writes step ∧ (session.after step).AllWritten rest))

instance (session : Session) : DecidablePred session.AllWritten := session.decideAllWritten

theorem allWritten_append {session : Session} {front back : List Step}
    (h : session.AllWritten (front ++ back)) :
    session.AllWritten front ∧ (session.run front).AllWritten back := by
  induction front generalizing session with
  | nil => exact ⟨trivial, h⟩
  | cons step rest ih =>
      obtain ⟨hfront, hback⟩ := ih h.2
      exact ⟨⟨h.1, hfront⟩, hback⟩

-- Which of some lines come for the first time.
def firstTimes (lines : List String) : List Bool :=
  lines.mapIdx fun n line => decide (line ∉ lines.take n)

theorem firstTimes_concat (lines : List String) (line : String) :
    firstTimes (lines ++ [line]) = firstTimes lines ++ [decide (line ∉ lines)] := by
  rw [firstTimes, List.mapIdx_concat, List.take_left, firstTimes]
  congr 1
  apply List.ext_getElem
  · simp
  · intro n hn _
    rw [List.length_mapIdx] at hn
    simp [List.take_append_of_le_length hn.le]

-- The file, the lines that wait and the answers are those of the lines recorded so far.
structure Follows (path : String) (previous? : Option (List UInt8)) (recorded : List String)
    (session : Session) : Prop where
  batched : Batched (fun disk written => disk.bytesAt? path = bytesAfter previous? written) path
    recorded session.log session.files.disk
  answers : session.answers = firstTimes recorded

section

variable {path : String} {previous? : Option (List UInt8)} {recorded : List String}
  {session : Session}

theorem follows_start (path : String) (files : LoggedDisk) :
    Follows path (files.disk.bytesAt? path) [] (start path files) where
  batched := ⟨rfl, rfl, [], rfl, rfl⟩
  answers := rfl

theorem record_fst (log : PlanLog) (line : String) (files : LoggedDisk) :
    (log.record line files).1 = decide (line ∉ log.seen) := by
  unfold PlanLog.record
  by_cases h : line ∈ log.seen
  · simp [h]
  · rw [if_neg h, decide_eq_true h]
    dsimp only
    split <;> rfl

theorem Follows.after (h : Follows path previous? recorded session) (step : Step)
    (hwrites : session.Writes step) :
    Follows path previous? (recorded ++ step.line?.toList) (session.after step) := by
  obtain ⟨hbatched, hanswers⟩ := h
  cases step with
  | record line =>
      refine ⟨hbatched.record (grows_bytes path previous?) line hwrites, ?_⟩
      have hanswer := record_fst session.log line session.files
      rw [hbatched.seen] at hanswer
      simp only [mem_distinct] at hanswer
      rw [Step.line?, Option.toList_some, firstTimes_concat, ← hanswers, ← hanswer]
      rfl
  | intervalPasses =>
      rw [Step.line?, Option.toList_none, List.append_nil]
      exact ⟨⟨hbatched.file, hbatched.seen, hbatched.written⟩, hanswers⟩
  | flush =>
      rw [Step.line?, Option.toList_none, List.append_nil]
      exact ⟨hbatched.flush (grows_bytes path previous?) hwrites, hanswers⟩

theorem Follows.run {steps : List Step} (h : Follows path previous? recorded session)
    (hwrites : session.AllWritten steps) :
    Follows path previous? (recorded ++ linesOf steps) (session.run steps) := by
  induction steps generalizing recorded session with
  | nil =>
      rw [linesOf, List.filterMap_nil, List.append_nil]
      exact h
  | cons step rest ih =>
      have hrest := ih (h.after step hwrites.1) hwrites.2
      rw [List.append_assoc] at hrest
      cases step <;> exact hrest

theorem run_append (session : Session) (front back : List Step) :
    session.run (front ++ back) = (session.run front).run back := List.foldl_append

-- A last flush leaves nothing to wait.
theorem Follows.flushed (h : Follows path previous? recorded session)
    (hwrites : session.log.CanWrite session.files.disk) :
    (session.after .flush).log.pending = [] ∧
      (session.after .flush).files.disk.bytesAt? path =
        bytesAfter previous? (distinct recorded) ∧
      (session.after .flush).answers = firstTimes recorded :=
  have hflushed := h.batched.flushed (grows_bytes path previous?) hwrites
  ⟨hflushed.1, hflushed.2, h.answers⟩

end

section

variable {path : String} {files : LoggedDisk} {steps : List Step}

theorem follows_run (hwrites : (start path files).AllWritten steps) :
    Follows path (files.disk.bytesAt? path) (linesOf steps) ((start path files).run steps) := by
  have hfollows := (follows_start path files).run hwrites
  rwa [List.nil_append] at hfollows

theorem flushed_run (hwrites : (start path files).AllWritten (steps ++ [.flush])) :
    let ended := (start path files).run (steps ++ [.flush])
    ended.log.pending = [] ∧
      ended.files.disk.bytesAt? path =
        bytesAfter (files.disk.bytesAt? path) (distinct (linesOf steps)) ∧
      ended.answers = firstTimes (linesOf steps) := by
  intro ended
  obtain ⟨hsteps, hflush⟩ := allWritten_append hwrites
  have hended : ended = ((start path files).run steps).after .flush := run_append _ _ _
  rw [hended]
  exact (follows_run hsteps).flushed hflush.1

-- In what batches lines are written is not to be seen in the file. After a last flush it holds,
-- behind what it held before, every line once, in the order of their first recording; until then
-- what is missing waits. Each line was answered by whether it came for the first time, and another
-- timing of the same lines makes the same file.
theorem timing_unseen (hwrites : (start path files).AllWritten (steps ++ [.flush])) :
    let previous? := files.disk.bytesAt? path
    let ended := (start path files).run (steps ++ [.flush])
    ended.log.pending = [] ∧
      ended.files.disk.bytesAt? path = bytesAfter previous? (distinct (linesOf steps)) ∧
      ended.answers = firstTimes (linesOf steps) ∧
      (∀ front back, steps = front ++ back →
        let now := (start path files).run front
        ∃ written, written ++ now.log.pending = distinct (linesOf front) ∧
          now.files.disk.bytesAt? path = bytesAfter previous? written) ∧
      ∀ (path' : String) (files' : LoggedDisk) (steps' : List Step),
        (start path' files').AllWritten (steps' ++ [.flush]) →
        files'.disk.bytesAt? path' = previous? → linesOf steps' = linesOf steps →
        ((start path' files').run (steps' ++ [.flush])).files.disk.bytesAt? path' =
          ended.files.disk.bytesAt? path := by
  intro previous? ended
  obtain ⟨hpending, hbytes, hanswers⟩ := flushed_run hwrites
  refine ⟨hpending, hbytes, hanswers, ?_, ?_⟩
  · rintro front back rfl
    rw [List.append_assoc] at hwrites
    have hfront := (follows_run (allWritten_append hwrites).1).batched
    obtain ⟨written, hseen, hwritten⟩ := hfront.written
    refine ⟨written, ?_, hwritten⟩
    rw [← hseen]
    exact hfront.seen
  · intro path' files' steps' hwrites' hprevious hlines
    rw [(flushed_run hwrites').2.1, hprevious, hlines]
    exact hbytes.symm

end

-- Two timings of four lines, in a file that begins with a byte that is no text.
namespace Sample

def files : LoggedDisk := { disk := .ofFiles [] [("plan.log", .binary [255])] }

def late : List Step :=
  [.record "a", .record "b", .intervalPasses, .record "a", .record "c"]

def early : List Step :=
  [.record "a", .flush, .intervalPasses, .record "b", .flush, .record "a", .record "c"]

end Sample

theorem timing_unseen_of_two :
    ((start "plan.log" Sample.files).run (Sample.late ++ [.flush])).answers =
        [true, true, false, true] ∧
      ((start "plan.log" Sample.files).run (Sample.late ++ [.flush])).files.disk.bytesAt?
          "plan.log" = some (255 :: "a\nb\nc\n".toUTF8.toList) ∧
      ((start "plan.log" Sample.files).run (Sample.early ++ [.flush])).files.disk.bytesAt?
          "plan.log" =
        ((start "plan.log" Sample.files).run (Sample.late ++ [.flush])).files.disk.bytesAt?
          "plan.log" := by
  have hlate : (start "plan.log" Sample.files).AllWritten (Sample.late ++ [.flush]) := by
    decide +kernel
  have hearly : (start "plan.log" Sample.files).AllWritten (Sample.early ++ [.flush]) := by
    decide +kernel
  obtain ⟨-, hbytes, hanswers, -, hothers⟩ := timing_unseen hlate
  refine ⟨?_, ?_, hothers "plan.log" Sample.files Sample.early hearly rfl (by decide +kernel)⟩
  · rw [hanswers]
    decide +kernel
  · have hprevious : Sample.files.disk.bytesAt? "plan.log" = some [255] := by decide +kernel
    have hrecorded : distinct (linesOf Sample.late) = ["a", "b", "c"] := by decide +kernel
    have htext : fileText ["a", "b", "c"] = "a\nb\nc\n" := by decide +kernel
    rw [hbytes, hprevious, hrecorded, bytesAfter, htext]
    · rfl
    · exact List.cons_ne_nil _ _

end Session

end DelayInjection.PlanLog
