import DelayInjection.Proofs.Persist.Distinct
import DelayInjection.Proofs.Persist.Loading

-- The two readers of a file: the strict one gives up at the first malformed line, the forgiving
-- one skips such lines and warns of them. They agree on what the other lines say.

namespace DelayInjection

-- Two readers of files in one format, when their answers say the same, and what the forgiving one
-- tells of the file besides its malformed lines.
structure Readers (α β γ : Type) where
  line : List Char → Except LineError (Option α)
  kind : String
  path : String
  strict : Disk → Except PersistenceError β
  load : LoggedDisk → γ × LoggedDisk
  Same : β → γ → Prop
  told : Disk → List LogLine

namespace Readers

variable {α β γ : Type}

-- Lines that are well-formed, blank or a comment.
def Sound (readers : Readers α β γ) (line : List Char) : Prop :=
  isSkipped line = true ∨ ∃ item, readers.line line = .ok (some item)

-- The warning about a malformed line.
def skipping (readers : Readers α β γ) (number : Nat) (reason : LineError) : LogLine where
  level := .warn
  message := "Skipping malformed " ++ readers.kind ++ " line " ++ Text.ofNat number ++ " in " ++
    readers.path ++ ": " ++ reason.message

-- What the readers make of a file that holds a text.
structure Agree (readers : Readers α β γ) (files : LoggedDisk) (content : String) : Prop where
  accepted : (∃ answer, readers.strict files.disk = .ok answer) ↔
    ∀ line ∈ Text.lines content.toList, readers.Sound line
  same : ∀ answer, readers.strict files.disk = .ok answer →
    readers.Same answer (readers.load files).1 ∧
      (readers.load files).2.log = files.log ++ readers.told files.disk
  refused : ∀ error, readers.strict files.disk = .error error → ∃ front line back reason,
    Text.lines content.toList = front ++ line :: back ∧ (∀ other ∈ front, readers.Sound other) ∧
      readers.line line = .error reason ∧ error = .malformedLine (front.length + 1) reason
  -- without its malformed lines the text says the same to both
  cleaned : ∀ cleaned : LoggedDisk,
    cleaned.disk.read readers.path = .ok (LineReport.wellFormed readers.line content) →
      (readers.load cleaned).1 = (readers.load files).1 ∧
        ∃ answer, readers.strict cleaned.disk = .ok answer ∧
          readers.Same answer (readers.load files).1
  warned : (readers.load files).2.log = files.log ++
    ((Text.numbered (Text.lines content.toList)).filterMap
      (LineReport.malformed? readers.line)).map (fun line => readers.skipping line.1 line.2) ++
    readers.told files.disk

-- Readers that go by the report about a text.
structure ByReport (readers : Readers α β γ) (listed : List α → β) (taken : List α → γ) :
    Prop where
  skips : ∀ line, readers.line line = .ok none ↔ isSkipped line = true
  strict : ∀ disk content, disk.read readers.path = .ok content →
    readers.strict disk = (LineReport.ofText readers.line content).strict.map listed
  load : ∀ files content, files.disk.read readers.path = .ok content →
    (readers.load files).1 = taken (LineReport.ofText readers.line content).items ∧
      (readers.load files).2.log =
        files.log ++
          (LineReport.ofText readers.line content).warnings readers.kind readers.path ++
          readers.told files.disk
  same : ∀ items, readers.Same (listed items) (taken items)

section

variable {readers : Readers α β γ} {listed : List α → β} {taken : List α → γ}

theorem ByReport.sound_iff (h : readers.ByReport listed taken) (line : List Char) :
    readers.Sound line ↔ LineReport.Reads readers.line line := by
  rw [Sound, ← h.skips]
  constructor
  · rintro (hskipped | ⟨item, hitem⟩)
    · exact ⟨none, hskipped⟩
    · exact ⟨some item, hitem⟩
  · rintro ⟨_ | item, hread⟩
    · exact .inl hread
    · exact .inr ⟨item, hread⟩

theorem ByReport.agree (h : readers.ByReport listed taken) {files : LoggedDisk}
    {content : String} (hread : files.disk.read readers.path = .ok content) :
    readers.Agree files content := by
  have hstrict := h.strict files.disk content hread
  obtain ⟨hload, hlog⟩ := h.load files content hread
  refine { accepted := ?accepted, same := ?same, refused := ?refused, cleaned := ?cleaned,
           warned := ?warned }
  case accepted =>
    simp only [h.sound_iff]
    rcases LineReport.reads_or_first readers.line (Text.lines content.toList) with
      hreads | ⟨front, line, back, reason, hlines, hfront, hline⟩
    · rw [LineReport.strict_of_reads hreads] at hstrict
      exact iff_of_true ⟨_, hstrict⟩ hreads
    · rw [LineReport.strict_of_first hlines hfront hline] at hstrict
      refine iff_of_false ?_ fun hreads => ?_
      · rintro ⟨answer, hanswer⟩
        rw [hstrict] at hanswer
        cases hanswer
      · exact LineReport.not_reads_iff.mpr ⟨reason, hline⟩ (hreads line (by simp [hlines]))
  case same =>
    intro answer hanswer
    rw [hstrict] at hanswer
    cases hitems : (LineReport.ofText readers.line content).strict with
    | error e =>
        rw [hitems] at hanswer
        cases hanswer
    | ok items =>
        rw [hitems] at hanswer
        obtain ⟨hnone, rfl⟩ := LineReport.strict_eq_ok_iff.mp hitems
        obtain rfl := Except.ok.inj hanswer
        rw [hload, hlog, LineReport.warnings, hnone, List.map_nil, List.append_nil]
        exact ⟨h.same _, rfl⟩
  case refused =>
    intro error herror
    simp only [h.sound_iff]
    rcases LineReport.reads_or_first readers.line (Text.lines content.toList) with
      hreads | ⟨front, line, back, reason, hlines, hfront, hline⟩
    · rw [hstrict, LineReport.strict_of_reads hreads] at herror
      cases herror
    · rw [hstrict, LineReport.strict_of_first hlines hfront hline] at herror
      exact ⟨front, line, back, reason, hlines, hfront, hline, (Except.error.inj herror).symm⟩
  case cleaned =>
    intro cleaned hcleaned
    have hstrict' := h.strict cleaned.disk _ hcleaned
    have hload' := (h.load cleaned _ hcleaned).1
    rw [LineReport.ofText_wellFormed] at hstrict' hload'
    rw [hload]
    exact ⟨hload', _, hstrict', h.same _⟩
  case warned =>
    rw [hlog, LineReport.warnings, LineReport.malformed_ofText]
    rfl

end

end Readers

theorem PlanLine.ofChars_eq_none_iff (line : List Char) :
    ofChars line = .ok none ↔ isSkipped line = true := by
  unfold ofChars
  split
  · rename_i hskip
    exact iff_of_true rfl hskip
  · rename_i hskip
    refine iff_of_false ?_ hskip
    split
    · nofun
    · rename_i a b _
      cases hleft : side a with
      | error e => nofun
      | ok left => cases side b <;> nofun

theorem BugLine.ofChars_eq_none_iff (line : List Char) :
    ofChars line = .ok none ↔ isSkipped line = true := by
  unfold ofChars
  split
  · rename_i hskip
    exact iff_of_true rfl hskip
  · rename_i hskip
    refine iff_of_false ?_ hskip
    split <;> nofun

namespace PlanFile

def readers (path : String) (delayMs : UInt64) :
    Readers PlanLine (List TrapPlan) (List TrapPlan) where
  line := PlanLine.ofChars
  kind := "plan"
  path := path
  strict := fun disk => readStrict disk path delayMs
  load := fun files => load files path delayMs
  Same := fun listed loaded => loaded = listed
  told := fun disk => undeleted disk path

theorem parseStrict_text (content : String) (delayMs : UInt64) :
    parseStrict (.ok content) delayMs =
      (report content).strict.map fun lines => plansFromPairs lines delayMs := by
  change ((Text.numbered (Text.lines content.toList)).foldlM readLineStrict [] >>= fun lines =>
    pure (plansFromPairs lines delayMs)) = _
  rw [foldlM_readLineStrict]
  cases (report content).strict <;> rfl

theorem readers_byReport (path : String) (delayMs : UInt64) :
    (readers path delayMs).ByReport (plansFromPairs · delayMs) (plansFromPairs · delayMs) where
  skips := PlanLine.ofChars_eq_none_iff
  strict := fun disk content hread =>
    (congrArg (parseStrict · delayMs) hread).trans (parseStrict_text content delayMs)
  load := fun files content hread => by
    have hload : (readers path delayMs).load files = _ := load_of_text hread delayMs
    rw [hload]
    exact ⟨rfl, rfl⟩
  same := fun _ => rfl

end PlanFile

namespace BugFile

-- The strict reader lists the pairs in order, the forgiving one makes a set of them.
def readers (path : String) : Readers LocationPair (List LocationPair) (List LocationPair) where
  line := BugLine.ofChars
  kind := "bug"
  path := path
  strict := fun disk => readStrict disk path
  load := fun files => load files path
  Same := fun listed loaded =>
    listed.Nodup ∧ loaded.Nodup ∧ ∀ pair, pair ∈ listed ↔ pair ∈ loaded
  told := fun _ => []

theorem parseStrict_text (content : String) :
    parseStrict (.ok content) = (report content).strict.map distinct := by
  refine (foldlM_readLineStrict content).trans ?_
  simp only [foldl_push]

theorem readers_byReport (path : String) : (readers path).ByReport distinct
    (fun items => items.foldl (fun races pair => races.insert pair) []) where
  skips := BugLine.ofChars_eq_none_iff
  strict := fun disk content hread =>
    (congrArg parseStrict hread).trans (parseStrict_text content)
  load := fun files content hread => by
    have hload : (readers path).load files = _ := load_of_text hread
    rw [hload]
    exact ⟨rfl, (List.append_nil _).symm⟩
  same := fun items => ⟨nodup_distinct items, nodup_foldl_insert List.nodup_nil, fun pair => by
    rw [mem_distinct, mem_foldl_insert]
    simp⟩

-- The pairs of a text, line by line.
def pairsOf (content : String) : List LocationPair :=
  (Text.lines content.toList).filterMap (LineReport.item? BugLine.ofChars)

-- What the strict reader lists are the pairs of the text, each once and in the order in which they
-- first come.
theorem firstsOf_strict {disk : Disk} {path content : String} {pairs : List LocationPair}
    (h : disk.read path = .ok content) (hpairs : readStrict disk path = .ok pairs) :
    FirstsOf (pairsOf content) pairs := by
  rw [readStrict, h, parseStrict_text] at hpairs
  cases hstrict : (report content).strict with
  | error e =>
      rw [hstrict] at hpairs
      cases hpairs
  | ok items =>
      rw [hstrict] at hpairs
      obtain rfl := Except.ok.inj hpairs
      obtain ⟨-, rfl⟩ := LineReport.strict_eq_ok_iff.mp hstrict
      rw [report, LineReport.items_ofText]
      exact firstsOf_distinct _

end BugFile

namespace Readers

-- The strict and the forgiving reader of a file agree, for plan files and for bug files. What the
-- strict reader of bug files lists is every pair once, in the order of the text. Only loading
-- plans deletes the file, and only a file that could be read; it is gone if and only if the
-- deletion succeeds, and otherwise the disk is as it was.
theorem readers_agree (files : LoggedDisk) (path : String) (delayMs : UInt64) :
    (∀ content, files.disk.read path = .ok content →
      (PlanFile.readers path delayMs).Agree files content ∧
      (BugFile.readers path).Agree files content ∧
      (∀ pairs, BugFile.readStrict files.disk path = .ok pairs →
        pairs.Nodup ∧ FirstsOf (BugFile.pairsOf content) pairs ∧
          ∀ pair, pair ∈ pairs ↔ pair ∈ (BugFile.load files path).1) ∧
      (PlanFile.load files path delayMs).2.disk = (files.disk.remove path).2 ∧
      ((PlanFile.load files path delayMs).2.disk.hasPath path = false ↔
        (files.disk.remove path).1 = none) ∧
      ((files.disk.remove path).1 ≠ none →
        (PlanFile.load files path delayMs).2.disk = files.disk)) ∧
    (∀ e, files.disk.read path = .error e →
      (PlanFile.load files path delayMs).2.disk = files.disk) ∧
    (BugFile.load files path).2.disk = files.disk := by
  refine ⟨fun content hread => ?_, fun e hread => ?_, BugFile.disk_load files path⟩
  · have hbugs := (BugFile.readers_byReport path).agree hread
    have hstays : (files.disk.remove path).1 ≠ none → (files.disk.remove path).2 = files.disk :=
      Disk.remove_failed hread
    rw [PlanFile.load_of_text hread delayMs]
    refine ⟨(PlanFile.readers_byReport path delayMs).agree hread, hbugs, fun pairs hpairs => ?_,
      rfl, ⟨fun hgone => ?_, Disk.hasPath_remove hread⟩, hstays⟩
    · obtain ⟨hlisted, -, hmem⟩ := (hbugs.same pairs hpairs).1
      exact ⟨hlisted, BugFile.firstsOf_strict hread hpairs, hmem⟩
    · by_contra hfailed
      rw [hstays hfailed] at hgone
      exact Disk.read_ne_of_missing hgone content hread
  · obtain ⟨hload, hdisk⟩ := PlanFile.load_of_failure hread delayMs
    rw [hload]
    exact hdisk

-- A plan file and a bug file with a comment, a blank line and a malformed line each, the plan file
-- cut off behind its last line, and the plan file without its malformed line.
namespace Sample

def plans : String := "# last run\r\n\nA|M|1|5|2 B|M|2|1|1\nA|M|1|5|2 ! A|M|1|5|2"

def bugs : String := "Put|M|4 Get|M|3\nrace\n \nGet|M|3 Put|M|4\n# end\n"

def files : LoggedDisk :=
  { disk := .ofFiles [] [("plans.log", .text plans), ("bugs.log", .text bugs)] }

def cleaned : LoggedDisk :=
  { disk := .ofFiles [] [("plans.log", .text "# last run\r\n\nA|M|1|5|2 ! A|M|1|5|2")] }

end Sample

-- The malformed line is told with its number, and without it the strict reader lists what the
-- forgiving one made of the file. Of the races the same one stands there twice.
theorem readers_agree_on_mixed :
    (PlanFile.load Sample.files "plans.log" 100).2.log =
        [{ level := .warn, message := "Skipping malformed plan line 3 in plans.log: " ++
            "missing '!' separator" }] ∧
      (PlanFile.load Sample.files "plans.log" 100).2.disk.hasPath "plans.log" = false ∧
      PlanFile.readStrict Sample.cleaned.disk "plans.log" 100 =
        .ok (PlanFile.load Sample.files "plans.log" 100).1 ∧
      (BugFile.load Sample.files "bugs.log").2.log =
        [{ level := .warn, message := "Skipping malformed bug line 2 in bugs.log: " ++
            "expected exactly two location keys" }] ∧
      (BugFile.load Sample.files "bugs.log").2.disk = Sample.files.disk := by
  obtain ⟨hplans, -, -, -, hgone, -⟩ :=
    (readers_agree Sample.files "plans.log" 100).1 Sample.plans (by decide +kernel)
  obtain ⟨hbugs, -, hstays⟩ := readers_agree Sample.files "bugs.log" 100
  obtain ⟨-, hagree, -⟩ := hbugs Sample.bugs (by decide +kernel)
  obtain ⟨-, answer, hstrict, hsame⟩ := hplans.cleaned Sample.cleaned (by decide +kernel)
  refine ⟨?_, hgone.mpr (by decide +kernel), hstrict.trans (congrArg Except.ok hsame.symm), ?_,
    hstays⟩
  · exact hplans.warned.trans (by decide +kernel)
  · exact hagree.warned.trans (by decide +kernel)

end Readers

end DelayInjection
