import DelayInjection.Proofs.Control.Recording
import DelayInjection.Proofs.LocationPair
import DelayInjection.Proofs.Persist.Timing

-- Interleavings that are recorded: what a section tells is made lasting before the next section of
-- any thread. However calls come upon conflicts, a pair of locations is reported once, and has one
-- line in the bug file.

namespace DelayInjection

-- An interleaving, its recorder, and the disk with the log.
structure Recorded where
  run : Interleaving
  recorder : Recorder
  files : LoggedDisk

namespace Recorded

-- Besides the sections, time passes for the plan file, and its lines are flushed.
inductive Action
  | act (action : Interleaving.Action)
  | intervalPasses
  | flush

def step (s : Recorded) : Action → Option (Output × Recorded)
  | .act action =>
      match s.run.step action with
      | none => none
      | some (output, run) =>
          let (recorder, files) := s.recorder.observeAll output.events s.files
          some (output, { run, recorder, files })
  | .intervalPasses =>
      let recorder := { s.recorder with planLog := s.recorder.planLog.intervalPasses }
      some ({}, { s with recorder := recorder })
  | .flush =>
      let (recorder, files) := s.recorder.flush s.files
      some ({}, { s with recorder := recorder, files := files })

-- One step of a run.
structure Step where
  before : Recorded
  output : Output
  after : Recorded

def exec (s : Recorded) : List Action → Option (List Step × Recorded)
  | [] => some ([], s)
  | action :: rest =>
      match s.step action with
      | none => none
      | some (output, next) =>
          (next.exec rest).map fun (steps, last) => (⟨s, output, next⟩ :: steps, last)

-- What every step preserves holds after every run, of the steps so far and the state.
theorem exec_induction {P : List Step → Recorded → Prop}
    (hstep : ∀ past s action output s', P past s → s.step action = some (output, s') →
      P (past ++ [⟨s, output, s'⟩]) s')
    {s s' : Recorded} {actions : List Action} {past steps : List Step}
    (h : s.exec actions = some (steps, s')) (hstart : P past s) : P (past ++ steps) s' := by
  induction actions generalizing s past steps with
  | nil =>
      obtain ⟨rfl, rfl⟩ := Prod.mk.inj (Option.some.inj h)
      simpa using hstart
  | cons action rest ih =>
      rw [exec] at h
      split at h
      · cases h
      · rename_i output next hnext
        obtain ⟨⟨later, last⟩, hrest, he⟩ := Option.map_eq_some_iff.mp h
        obtain ⟨rfl, rfl⟩ := Prod.mk.inj he
        have hlast := ih hrest (hstep past s action output next hstart hnext)
        simpa using hlast

def events (steps : List Step) : List Event := steps.flatMap (·.output.events)

def handled (steps : List Step) : List Handling := steps.flatMap (·.output.handled)

-- Whether the append of a pair to the bug file succeeds in a step that makes it.
def Step.appends (path : String) (step : Step) (pair : LocationPair) : Bool :=
  (step.before.files.disk.appendLines path [pair.text]).1.isNone

-- The pairs whose lines reach the bug file, in the order in which they are written.
def Step.written (path : String) (step : Step) : List LocationPair :=
  (Event.confirmedPairs step.output.events).filter (step.appends path)

def written (path : String) (steps : List Step) : List LocationPair :=
  steps.flatMap (·.written path)

-- Whether all appends to the bug file succeed.
def AllAppended (path : String) (steps : List Step) : Prop :=
  ∀ step ∈ steps, ∀ pair ∈ Event.confirmedPairs step.output.events, step.appends path pair = true

instance (path : String) (steps : List Step) : Decidable (AllAppended path steps) :=
  inferInstanceAs (Decidable (∀ step ∈ steps, _))

-- Whether there is never more than one race that is confirmed and still to be reported.
def OneByOne (steps : List Step) : Prop :=
  ∀ step ∈ steps, step.after.run.reporting.length ≤ 1

instance (steps : List Step) : Decidable (OneByOne steps) :=
  inferInstanceAs (Decidable (∀ step ∈ steps, _))

theorem events_concat (steps : List Step) (step : Step) :
    events (steps ++ [step]) = events steps ++ step.output.events := by
  simp [events]

theorem handled_concat (steps : List Step) (step : Step) :
    handled (steps ++ [step]) = handled steps ++ step.output.handled := by
  simp [handled]

theorem written_concat (path : String) (steps : List Step) (step : Step) :
    written path (steps ++ [step]) = written path steps ++ step.written path := by
  simp [written]

end Recorded

namespace BugFile

-- A bug file that has got one line for each of some pairs, behind the bytes that it had before.
structure Appended (path : String) (start now : Disk) (pairs : List LocationPair) : Prop where
  there : pairs ≠ [] → ∃ key, now.resolveText path = .ok key
  bytes : ∀ key, now.resolveText path = .ok key →
    now.bytes? key = PlanLog.bytesAfter (start.bytes? key) (pairs.map LocationPair.text)

-- A bug file in the course of a run, in which some other files are written besides. Its path is
-- followed on a later disk, since the directories on the way may still be missing.
structure Kept (path : String) (others : List String) (start now : Disk)
    (pairs : List LocationPair) : Prop where
  there : pairs ≠ [] → ∃ key, now.resolveText path = .ok key
  bytes : ∀ later : Disk, now.KeepsDirectories later → later.Apart path others →
    ∀ key, later.resolveText path = .ok key →
      now.bytes? key = PlanLog.bytesAfter (start.bytes? key) (pairs.map LocationPair.text)

section

variable {path : String} {others : List String} {start now next : Disk}
  {pairs : List LocationPair}

theorem Kept.refl (path : String) (others : List String) (disk : Disk) :
    Kept path others disk disk [] where
  there h := absurd rfl h
  bytes _ _ _ _ _ := rfl

theorem Kept.appended (h : Kept path others start now pairs) (hapart : now.Apart path others) :
    Appended path start now pairs where
  there := h.there
  bytes := h.bytes now (fun _ hkey => hkey) hapart

theorem Kept.changes (h : Kept path others start now pairs)
    (hchanges : Disk.ChangesOnly others now next) : Kept path others start next pairs where
  there hne := by
    obtain ⟨key, hkey⟩ := h.there hne
    exact ⟨key, Disk.resolveText_keeps hchanges.directories hkey⟩
  bytes later hkeeps hapart key hkey := by
    have hreached : ¬ next.Reached others key := fun hreached =>
      hapart key hkey (hreached.keeps hkeeps)
    rw [hchanges.bytes?_eq hreached]
    exact h.bytes later (fun key hdirectory => hkeeps key (hchanges.directories key hdirectory))
      hapart key hkey

-- An append adds the line of its pair if it succeeds, and changes no file if it fails.
theorem Kept.append (h : Kept path others start now pairs) (pair : LocationPair) :
    Kept path others start (now.appendLines path [pair.text]).2
      (pairs ++ [pair].filter fun pair => (now.appendLines path [pair.text]).1.isNone) := by
  cases hattempt : now.appendLines path [pair.text] with
  | mk failure next =>
      cases failure with
      | some e =>
          rw [List.filter_cons_of_neg (by simp [hattempt]), List.filter_nil, List.append_nil]
          exact h.changes ((Disk.changes_of_failure hattempt).mono (List.nil_subset _))
      | none =>
          obtain ⟨key, hkey, hbytes⟩ := Disk.bytes?_written hattempt
          rw [List.filter_cons_of_pos (by simp [hattempt]), List.filter_nil]
          refine ⟨fun _ => ⟨key, hkey⟩, ?_⟩
          intro later hkeeps hapart found hfound
          obtain rfl := Except.ok.inj ((Disk.resolveText_keeps hkeeps hkey).symm.trans hfound)
          have hgrown := (now.appendBelow_changes path (PlanLog.fileText [pair.text])).directories
          rw [show now.appendBelow path (PlanLog.fileText [pair.text]) = (none, next) from hattempt]
            at hgrown
          have hbefore := h.bytes later (fun key hdirectory => hkeeps key (hgrown key hdirectory))
            hapart key hfound
          rw [hbytes, hbefore, List.map_append, PlanLog.bytesAfter_append _ _ (by simp)]
          rfl

end

end BugFile

namespace Recorded

-- What is known of a run from its start: the ledger agrees with what was told, the recorder kept
-- its files, its sinks heard of everything, and the bug file has got the lines that were written.
structure Follows (start : Recorded) (steps : List Step) (s : Recorded) : Prop where
  reported : s.run.Reported start.run.controller.shared.ledger.blacklist (events steps)
    (handled steps)
  in_order : OneByOne steps →
    s.run.reporting.length ≤ 1 ∧
      Event.confirmedPairs (events steps) = Event.newPairs (events steps) ++ s.run.reporting
  bugFile : s.recorder.bugFile = start.recorder.bugFile
  otherPaths : s.recorder.otherPaths = start.recorder.otherPaths
  sinks : s.recorder.sinks = start.recorder.sinks.map (Sink.after (events steps))
  kept : ∀ path ∈ start.recorder.bugFile, BugFile.Kept path start.recorder.otherPaths
    start.files.disk s.files.disk (written path steps)

section

variable {start s : Recorded} {steps : List Step}

theorem follows_refl (hfresh : start.run.controller.Fresh) (hidle : start.run.stages = .empty) :
    Follows start [] start := by
  have hnone : ∀ {α : Type} (f : Stage → Option α), start.run.stages.values.filterMap f = [] := by
    intro α f
    rw [hidle]
    rfl
  have hunreported : start.run.unreported = [] := hnone Stage.unreported?
  have hreporting : start.run.reporting = [] := hnone Stage.reporting?
  have hinHand : start.run.inHand = [] := hnone Stage.inHand?
  have hseen := hfresh.seen_eq
  refine ⟨⟨rfl, ?_, ?_, ?_, ?_, ?_, ?_⟩, ?_, rfl, rfl, ?_, fun path _ => .refl path _ _⟩
  · rw [hseen]
    exact List.nodup_nil
  · rw [hseen, hunreported]
    exact .refl _
  · rw [hreporting]
    exact .refl _
  · simp [hinHand]
  · simp [hseen, hinHand, handled]
  · simp [handled]
  · intro _
    rw [hreporting]
    exact ⟨Nat.zero_le 1, rfl⟩
  · have hnil : Sink.after (events []) = id := funext Sink.after_nil
    rw [hnil, List.map_id]

-- A step that tells nothing and at most writes files other than the bug file.
theorem Follows.idle (h : Follows start steps s) {recorder : Recorder} {files : LoggedDisk}
    (hbugFile : recorder.bugFile = s.recorder.bugFile)
    (hpaths : recorder.otherPaths = s.recorder.otherPaths)
    (hsinks : recorder.sinks = s.recorder.sinks)
    (hchanges : Disk.ChangesOnly s.recorder.otherPaths s.files.disk files.disk) :
    Follows start (steps ++ [⟨s, {}, { s with recorder := recorder, files := files }⟩])
      { s with recorder := recorder, files := files } := by
  have hevents : events (steps ++ [⟨s, {}, { s with recorder := recorder, files := files }⟩]) =
      events steps := by simp [events]
  have hhandled : handled (steps ++ [⟨s, {}, { s with recorder := recorder, files := files }⟩]) =
      handled steps := by simp [handled]
  refine ⟨?_, ?_, hbugFile.trans h.bugFile, hpaths.trans h.otherPaths, ?_, ?_⟩
  · rw [hevents, hhandled]
    exact h.reported
  · intro hall
    rw [hevents]
    exact h.in_order fun step hm => hall step (List.mem_append_left _ hm)
  · rw [hevents]
    exact hsinks.trans h.sinks
  · intro path hpath
    have hwritten : written path
        (steps ++ [⟨s, {}, { s with recorder := recorder, files := files }⟩]) =
          written path steps := by
      rw [written_concat]
      exact List.append_nil _
    rw [hwritten]
    exact (h.kept path hpath).changes (h.otherPaths ▸ hchanges)

-- A section of a call, or an instance that is forgotten.
theorem Follows.act (h : Follows start steps s) {action : Interleaving.Action} {output : Output}
    {run : Interleaving} (hstep : s.run.step action = some (output, run)) :
    let (recorder, files) := s.recorder.observeAll output.events s.files
    Follows start (steps ++ [⟨s, output, { run, recorder, files }⟩]) { run, recorder, files } := by
  dsimp only
  generalize hobserved : s.recorder.observeAll output.events s.files = observed
  have hbugFile := s.recorder.observeAll_bugFile output.events s.files
  have hpaths := s.recorder.observeAll_otherPaths output.events s.files
  have hsinks := s.recorder.observeAll_sinks output.events s.files
  rw [hobserved] at hbugFile hpaths hsinks
  refine ⟨?_, ?_, hbugFile.trans h.bugFile, hpaths.trans h.otherPaths, ?_, ?_⟩
  · rw [events_concat, handled_concat]
    exact h.reported.step hstep
  · intro hall
    obtain ⟨hone, horder⟩ := h.in_order fun step hm => hall step (List.mem_append_left _ hm)
    have hone' : run.reporting.length ≤ 1 :=
      hall _ (List.mem_append_right _ (List.mem_singleton_self _))
    rw [events_concat]
    exact ⟨hone', Interleaving.confirmed_in_order hstep horder hone hone'⟩
  · rw [hsinks, h.sinks, List.map_map, events_concat]
    congr 1
    funext sink
    exact sink.after_after (events steps) output.events
  · intro path hpath
    have hkept := h.kept path hpath
    have hbug : s.recorder.bugFile = some path := h.bugFile.trans hpath
    rw [written_concat]
    rcases Interleaving.step_confirms hstep with hquiet | ⟨pair, hevents⟩
    · -- nothing is confirmed, so that the bug file is left alone
      have hchanges := s.recorder.changes_observeAll hquiet s.files
      rw [hobserved, h.otherPaths] at hchanges
      simp only [Step.written, hquiet, List.filter_nil, List.append_nil]
      exact hkept.changes hchanges
    · have hdisk : observed.2.disk = (s.files.disk.appendLines path [pair.text]).2 := by
        rw [← hobserved, hevents]
        simp only [Recorder.observeAll, List.foldl_cons, List.foldl_nil, Recorder.observe, hbug]
        exact LoggedDisk.disk_appendLines s.files "bug" path [pair.text]
      simp only [Step.written, hevents, hdisk]
      exact hkept.append pair

theorem Follows.step (h : Follows start steps s) {action : Action} {output : Output}
    {s' : Recorded} (hstep : s.step action = some (output, s')) :
    Follows start (steps ++ [⟨s, output, s'⟩]) s' := by
  cases action with
  | act action =>
      simp only [Recorded.step] at hstep
      split at hstep
      · cases hstep
      · rename_i told run hrun
        obtain ⟨rfl, rfl⟩ := Prod.mk.inj (Option.some.inj hstep)
        exact h.act hrun
  | intervalPasses =>
      obtain ⟨rfl, rfl⟩ := Prod.mk.inj (Option.some.inj hstep)
      exact h.idle rfl rfl rfl (.refl _ _)
  | flush =>
      obtain ⟨rfl, rfl⟩ := Prod.mk.inj (Option.some.inj hstep)
      have hplan := s.recorder.planLog.flush_path s.files
      refine h.idle rfl ?_ rfl (s.recorder.changes_flush s.files)
      rw [Recorder.otherPaths, Recorder.otherPaths]
      exact congrArg (fun path? : Option String => path?.toList ++ s.recorder.reportPaths) hplan

theorem Follows.exec {actions : List Action} (h : Follows start [] start)
    (hexec : start.exec actions = some (steps, s)) : Follows start steps s :=
  exec_induction (P := Follows start) (fun _ _ _ _ _ h hstep => h.step hstep) hexec h

theorem written_of_allAppended {path : String} (h : AllAppended path steps) :
    written path steps = Event.confirmedPairs (events steps) := by
  induction steps with
  | nil => rfl
  | cons step rest ih =>
      obtain ⟨hstep, hrest⟩ := List.forall_mem_cons.mp h
      have hfirst : step.written path = Event.confirmedPairs step.output.events :=
        List.filter_eq_self.mpr hstep
      have hlater := ih hrest
      simp only [written, events, List.flatMap_cons, Event.confirmedPairs_append] at hlater ⊢
      rw [hfirst, hlater]

end

end Recorded

namespace Interleaving

-- At rest, when no thread has a race in hand, nothing is left to be reported.
theorem unreported_of_rest {s : Interleaving} (h : s.inHand = []) :
    s.unreported = [] ∧ s.reporting = [] := by
  have hstage := List.filterMap_eq_nil_iff.mp h
  exact ⟨List.filterMap_eq_nil_iff.mpr fun stage hm => (Stage.rest_of_inHand (hstage stage hm)).1,
    List.filterMap_eq_nil_iff.mpr fun stage hm => (Stage.rest_of_inHand (hstage stage hm)).2⟩

end Interleaving

namespace Recorded

-- Two threads that race with the trap of a third one from different places.
namespace Sample

def start (disk : Disk) : Recorded where
  run :=
    { controller :=
        Detector.newRandomized Sample.randomized Sample.classifier Sample.entropy [] }
  recorder := { bugFile := some "bugs.log", sinks := [.memory {}] }
  files := { disk := disk }

def racing (thread : ThreadId) (offset : Int32) : Call := { Sample.call thread with offset }

-- The second thread faces its race first, and the third one confirms its own first.
def overlapping : List Action :=
  [.act (.arrive (Sample.call 1)), .act (.advance 1), .act (.advance 1),
    .act (.arrive (racing 2 2)), .act (.advance 2), .act (.advance 2),
    .act (.arrive (racing 3 3)), .act (.advance 3), .act (.advance 3),
    .act (.advance 3), .act (.advance 2), .act (.advance 2), .act (.advance 3),
    .act (.advance 2), .act (.advance 3)]

-- The second thread alone.
def single : List Action := overlapping.take 6 ++ List.replicate 3 (.act (.advance 2))

def first : LocationPair := .of "List.Add|Main|1" "List.Add|Main|2"

def second : LocationPair := .of "List.Add|Main|1" "List.Add|Main|3"

end Sample

-- Whether the runs of some kind leave the lines of their events, in that order, once they are at
-- rest.
def LinesFollowEvents (kind : String → List Step → Prop) : Prop :=
  ∀ (start s : Recorded) (actions : List Action) (steps : List Step) (path : String),
    start.run.controller.Fresh → start.run.stages = .empty →
    start.exec actions = some (steps, s) → start.recorder.bugFile = some path →
    s.files.disk.Apart path start.recorder.otherPaths → s.run.inHand = [] → kind path steps →
    BugFile.Appended path start.files.disk s.files.disk (Event.newPairs (events steps))

theorem not_linesFollowEvents {kind : String → List Step → Prop}
    [∀ path steps, Decidable (kind path steps)] (disk : Disk) (actions : List Action)
    (h : ((Sample.start disk).exec actions).any (fun last =>
      decide (kind "bugs.log" last.1) && last.2.run.inHand == [] &&
        last.2.files.disk.resolveText "bugs.log" == .ok ["bugs.log"] &&
        last.2.files.disk.bytes? ["bugs.log"] !=
          PlanLog.bytesAfter (disk.bytes? ["bugs.log"])
            ((Event.newPairs (events last.1)).map LocationPair.text)) = true) :
    ¬ LinesFollowEvents kind := by
  intro hclaim
  obtain ⟨⟨steps, s⟩, hexec, htold⟩ := (Option.any_eq_true _ _).mp h
  simp only [Bool.and_eq_true, decide_eq_true_iff, beq_iff_eq, bne_iff_ne] at htold
  obtain ⟨⟨⟨hkind, hrest⟩, hkey⟩, hbytes⟩ := htold
  have hfresh : (Sample.start disk).run.controller.Fresh :=
    .randomized Sample.randomized Sample.classifier Sample.entropy []
  have hapart : s.files.disk.Apart "bugs.log" (Sample.start disk).recorder.otherPaths := by
    rintro key - ⟨path, hm, -⟩
    cases hm
  have happended := hclaim (Sample.start disk) s actions steps "bugs.log" hfresh rfl hexec rfl
    hapart hrest hkind
  exact hbytes (happended.bytes ["bugs.log"] hkey)

end Recorded

end DelayInjection
