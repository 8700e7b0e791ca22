import DelayInjection.RaceLedger
import DelayInjection.Proofs.Persist.Batching
import DelayInjection.Proofs.Persist.BugLine
import DelayInjection.Proofs.Persist.Loading

-- Confirmed races. What a run adds to the bug file is refused by the next run, and what stood in
-- the file before stays there, unless its last line was not finished.

namespace DelayInjection

namespace BugFile

section

variable {files next : LoggedDisk} {path : String} {content? : Option String}
  {pair : LocationPair} {pairs : List LocationPair}

theorem mem_load_iff : pair ∈ (load files path).1 ↔ ∃ content,
    files.disk.read path = .ok content ∧
      ∃ line ∈ Text.lines content.toList, BugLine.ofChars line = .ok (some pair) := by
  unfold load LoggedDisk.readOptional
  cases hread : files.disk.read path with
  | ok content =>
      dsimp only
      rw [foldl_readLine]
      simp [mem_foldl_insert, report, LineReport.mem_items_ofText_iff]
  | error e => cases e <;> simp

-- A missing file is read as an empty one.
theorem mem_load_of_holds (h : files.disk.Holds path content?) :
    pair ∈ (load files path).1 ↔
      ∃ line ∈ Text.lines (content?.getD "").toList, BugLine.ofChars line = .ok (some pair) := by
  simp only [mem_load_iff, h.read_iff]
  cases content? with
  | none => simp [Text.lines, Text.linesFrom]
  | some content => simp

theorem lines_fileText (h : ∀ pair ∈ pairs, pair.Recordable) :
    Text.lines (PlanLog.fileText (pairs.map (·.text))).toList = pairs.map (·.text.toList) := by
  rw [PlanLog.toList_fileText, List.map_map, Text.lines_flatMap]
  · rfl
  intro chars hm
  obtain ⟨pair, hpair, rfl⟩ := List.mem_map.mp hm
  exact LocationPair.text_uncut (h pair hpair)

-- Behind finished lines exactly the pairs that were written come to those that were there.
theorem mem_load_of_written (hfinished : Text.IsFinished (content?.getD "").toList)
    (hpairs : ∀ pair ∈ pairs, pair.Recordable)
    (hholds : files.disk.Holds path content?)
    (hnext : next.disk.Holds path (PlanLog.contentAfter content? (pairs.map (·.text)))) :
    pair ∈ (load next path).1 ↔ pair ∈ (load files path).1 ∨ pair ∈ pairs := by
  have hwritten : (∃ line ∈ pairs.map (·.text.toList), BugLine.ofChars line = .ok (some pair)) ↔
      pair ∈ pairs := by
    constructor
    · rintro ⟨line, hline, hread⟩
      obtain ⟨written, hm, rfl⟩ := List.mem_map.mp hline
      rw [LocationPair.ofChars_text (hpairs written hm), Except.ok.injEq, Option.some.injEq]
        at hread
      exact hread ▸ hm
    · intro hm
      exact ⟨_, List.mem_map_of_mem hm, LocationPair.ofChars_text (hpairs pair hm)⟩
  rw [mem_load_of_holds hnext, mem_load_of_holds hholds, PlanLog.getD_contentAfter,
    String.toList_append, Text.lines_append hfinished, lines_fileText hpairs]
  simp only [List.mem_append, or_and_right, exists_or, hwritten]

-- The file after a run of races.
def appendAll (files : LoggedDisk) (path : String) (pairs : List LocationPair) : LoggedDisk :=
  pairs.foldl (fun files pair => append files (some path) pair) files

-- Whether or not it can be written, a text keeps its beginning.
theorem read_append {content : String} (h : files.disk.read path = .ok content)
    (pair : LocationPair) :
    ∃ added, (append files (some path) pair).disk.read path = .ok (content ++ added) := by
  rw [append, LoggedDisk.appendLines]
  cases hattempt : files.disk.appendLines path [pair.text] with
  | mk failure disk =>
      cases failure with
      | none => exact ⟨_, (show files.disk.Holds path (some content) from h).appendBelow hattempt⟩
      | some e =>
          refine ⟨"", ?_⟩
          rw [String.append_empty]
          exact Disk.read_extends (Disk.extends_of_failure hattempt) h

theorem read_appendAll {content : String} (h : files.disk.read path = .ok content)
    (pairs : List LocationPair) :
    ∃ added, (appendAll files path pairs).disk.read path = .ok (content ++ added) := by
  induction pairs generalizing files content with
  | nil => exact ⟨"", by rw [String.append_empty]; exact h⟩
  | cons pair rest ih =>
      obtain ⟨first, hfirst⟩ := read_append h pair
      obtain ⟨others, hothers⟩ := ih hfirst
      exact ⟨first ++ others, by rw [← String.append_assoc]; exact hothers⟩

-- A pair is found again, unless it stands on a last line that was not finished: what is written
-- next comes behind it on the same line.
theorem mem_load_appendAll (h : pair ∈ (load files path).1) (pairs : List LocationPair) :
    pair ∈ (load (appendAll files path pairs) path).1 ∨
      ∃ content, files.disk.read path = .ok content ∧
        BugLine.ofChars (Text.unfinished content.toList) = .ok (some pair) := by
  obtain ⟨content, hcontent, line, hline, hread⟩ := mem_load_iff.mp h
  obtain ⟨added, hadded⟩ := read_appendAll hcontent pairs
  have hfinished := Text.isFinished_finished content.toList
  have hcut := Text.finished_append_unfinished content.toList
  rw [← hcut, Text.lines_append hfinished, List.mem_append] at hline
  rcases hline with hline | hline
  · left
    refine mem_load_iff.mpr ⟨content ++ added, hadded, line, ?_, hread⟩
    rw [String.toList_append, ← hcut, List.append_assoc, Text.lines_append hfinished]
    exact List.mem_append_left _ hline
  · right
    refine ⟨content, hcontent, ?_⟩
    have hne : Text.unfinished content.toList ≠ [] := by
      intro hnil
      rw [hnil] at hline
      cases hline
    rw [Text.lines, Text.linesFrom_of_not_mem (Text.feed_not_mem_unfinished _) [] (.inr hne)]
      at hline
    rw [List.mem_singleton.mp hline] at hread
    exact hread

theorem length_words_of_ofChars {line : List Char} (h : BugLine.ofChars line = .ok (some pair)) :
    (Text.words line).length = 2 := by
  obtain ⟨a, b, hwords, -⟩ := BugLine.words_of_ofChars h
  rw [hwords]
  rfl

-- Two races on one line are none.
theorem ofChars_merged {front : List Char} {race : LocationPair}
    (h : BugLine.ofChars front = .ok (some pair)) (hrace : race.Recordable)
    (other : LocationPair) : BugLine.ofChars (front ++ race.text.toList) ≠ .ok (some other) := by
  intro hread
  have hfront := length_words_of_ofChars h
  have hmerged := length_words_of_ofChars hread
  have hbegin := Text.length_words_le front race.first.toList
  rw [LocationPair.toList_text, ← List.append_assoc, Text.words_append_of_isBlank (by decide),
    hrace.second.words_eq, List.length_append, List.length_singleton] at hmerged
  omega

-- A race on an unfinished line is lost with the next one that is written, and takes it along:
-- what is left are the finished lines.
theorem mem_load_append_unfinished {content : String} {race : LocationPair}
    (hcontent : files.disk.read path = .ok content)
    (hline : BugLine.ofChars (Text.unfinished content.toList) = .ok (some pair))
    (hrace : race.Recordable) (hwrite : (files.disk.appendLines path [race.text]).1 = none)
    (other : LocationPair) :
    other ∈ (load (append files (some path) race) path).1 ↔
      ∃ line ∈ Text.lines (Text.finished content.toList),
        BugLine.ofChars line = .ok (some other) := by
  have hholds : files.disk.Holds path (PlanLog.contentAfter (some content) []) := hcontent
  have hwritten := PlanLog.holds_appendLines hholds (List.cons_ne_nil _ _) hwrite "bug"
  have hmerged : Text.lines
      (Text.unfinished content.toList ++ (PlanLog.fileText [race.text]).toList) =
      [Text.unfinished content.toList ++ race.text.toList] := by
    have huncut : ∀ line ∈ [Text.unfinished content.toList ++ race.text.toList],
        '\n' ∉ line ∧ line.getLast? ≠ some '\r' := by
      intro line hm
      obtain ⟨hfeed, hreturn⟩ := LocationPair.text_uncut hrace
      rw [List.mem_singleton.mp hm, List.mem_append, not_or]
      refine ⟨⟨Text.feed_not_mem_unfinished _, hfeed⟩, ?_⟩
      rwa [List.getLast?_append_of_ne_nil _ (by simp [LocationPair.toList_text])]
    have hlines := Text.lines_flatMap huncut
    simpa [PlanLog.toList_fileText] using hlines
  have hcut := Text.finished_append_unfinished content.toList
  rw [append, mem_load_of_holds hwritten, PlanLog.getD_contentAfter, String.toList_append,
    Option.getD_some, ← hcut, List.append_assoc, Text.lines_append (Text.isFinished_finished _),
    List.nil_append, hmerged, hcut]
  simp only [List.mem_append, List.mem_singleton, or_and_right, exists_or, exists_eq_left,
    ofChars_merged hline hrace, or_false]

-- The blacklist only grows where the last line of the file was finished, and elsewhere it loses
-- no race but the one on the unfinished line. That one it loses with the next race.
theorem blacklist_grows (files : LoggedDisk) (path : String) (pairs : List LocationPair) :
    (∀ content, files.disk.read path = .ok content → Text.IsFinished content.toList →
      ∀ pair ∈ (load files path).1, pair ∈ (load (appendAll files path pairs) path).1) ∧
    (∀ pair ∈ (load files path).1, pair ∈ (load (appendAll files path pairs) path).1 ∨
      ∃ content, files.disk.read path = .ok content ∧
        BugLine.ofChars (Text.unfinished content.toList) = .ok (some pair)) ∧
    ∀ content pair race, files.disk.read path = .ok content →
      BugLine.ofChars (Text.unfinished content.toList) = .ok (some pair) → race.Recordable →
      (files.disk.appendLines path [race.text]).1 = none →
      ∀ other, other ∈ (load (append files (some path) race) path).1 ↔
        ∃ line ∈ Text.lines (Text.finished content.toList),
          BugLine.ofChars line = .ok (some other) := by
  refine ⟨?_, fun pair hm => mem_load_appendAll hm pairs, ?_⟩
  · intro content hcontent hfinished pair hm
    refine (mem_load_appendAll hm pairs).resolve_right ?_
    rintro ⟨found, hfound, hread⟩
    obtain rfl := Except.ok.inj (hcontent.symm.trans hfound)
    rw [Text.unfinished_of_isFinished hfinished] at hread
    cases hread
  · intro content pair race hcontent hline hrace hwrite other
    exact mem_load_append_unfinished hcontent hline hrace hwrite other

end

namespace Sample

def known : LocationPair := .of "Get|M|3" "Put|M|4"

def added : LocationPair := .of "Add|M|1" "Add|M|2"

def files (content : String) : LoggedDisk := { disk := .ofFiles [] [("bugs.log", .text content)] }

def commented : String := "Put|M|4 Get|M|3\n# known"

def cut : String := "Put|M|4 Get|M|3"

end Sample

-- An unfinished comment costs no race, an unfinished race both.
theorem blacklist_grows_behind_comment :
    Sample.known ∈
        (load (appendAll (Sample.files Sample.commented) "bugs.log" [Sample.added]) "bugs.log").1 ∧
      Sample.known ∉
        (load (append (Sample.files Sample.cut) (some "bugs.log") Sample.added) "bugs.log").1 ∧
      Sample.added ∉
        (load (append (Sample.files Sample.cut) (some "bugs.log") Sample.added) "bugs.log").1 := by
  obtain ⟨-, hkept, -⟩ :=
    blacklist_grows (Sample.files Sample.commented) "bugs.log" [Sample.added]
  obtain ⟨-, -, hlost⟩ := blacklist_grows (Sample.files Sample.cut) "bugs.log" []
  have hleft : ∀ other, ¬ ∃ line ∈ Text.lines (Text.finished Sample.cut.toList),
      BugLine.ofChars line = .ok (some other) := by
    have hnone : Text.finished Sample.cut.toList = [] := by decide +kernel
    rintro other ⟨line, hm, -⟩
    rw [hnone] at hm
    cases hm
  have hother := hlost Sample.cut Sample.known Sample.added (by decide +kernel) (by decide +kernel)
    (by decide +kernel) (by decide +kernel)
  refine ⟨(hkept Sample.known (by decide +kernel)).resolve_right ?_, ?_, ?_⟩
  · rintro ⟨content, hcontent, hread⟩
    have hfound : (Sample.files Sample.commented).disk.read "bugs.log" = .ok Sample.commented := by
      decide +kernel
    obtain rfl := Except.ok.inj (hfound.symm.trans hcontent)
    have hskipped : BugLine.ofChars (Text.unfinished Sample.commented.toList) = .ok none := by
      decide +kernel
    rw [hskipped] at hread
    cases hread
  · exact fun hm => hleft _ ((hother Sample.known).mp hm)
  · exact fun hm => hleft _ ((hother Sample.added).mp hm)

-- A race on an unfinished line is lost with the next one.
theorem blacklist_shrinks :
    ¬ ∀ (files : LoggedDisk) (path content : String) (pairs : List LocationPair),
      files.disk.read path = .ok content →
      ∀ pair ∈ (load files path).1, pair ∈ (load (appendAll files path pairs) path).1 := by
  intro hclaim
  have hkept := hclaim (Sample.files Sample.cut) "bugs.log" Sample.cut [Sample.added]
    (by decide +kernel) Sample.known (by decide +kernel)
  have hlost : (load (appendAll (Sample.files Sample.cut) "bugs.log" [Sample.added])
      "bugs.log").1 = [] := by decide +kernel
  rw [hlost] at hkept
  cases hkept

end BugFile

namespace RaceLedger

-- The ledger after more races.
def after (ledger : RaceLedger) (pairs : List LocationPair) : RaceLedger :=
  pairs.foldl (fun ledger pair => (ledger.record pair).2) ledger

-- How verdicts, a ledger and the disk come to be in a run whose writes succeed: the blacklist is
-- loaded, races are recorded, and meanwhile anything may happen to the disk that does not touch
-- the bug file.
inductive Kept (path : String) (start : LoggedDisk) :
    List (LocationPair × RaceVerdict) → RaceLedger → LoggedDisk → Prop
  | start : Kept path start [] (ofBlacklist (BugFile.load start path).1) (BugFile.load start path).2
  | record {told : List (LocationPair × RaceVerdict)} {ledger : RaceLedger} {files : LoggedDisk}
      (pair : LocationPair) (h : Kept path start told ledger files)
      (writes : (ledger.record pair).1 = .new →
        (files.disk.appendLines path [pair.text]).1 = none) :
      Kept path start (told ++ [(pair, (ledger.recordIn (some path) pair files).1)])
        (ledger.recordIn (some path) pair files).2.1 (ledger.recordIn (some path) pair files).2.2
  | meanwhile {told : List (LocationPair × RaceVerdict)} {ledger : RaceLedger} {files : LoggedDisk}
      (changed : LoggedDisk) (h : Kept path start told ledger files)
      (same : files.disk.SameFile changed.disk path) : Kept path start told ledger changed

-- The races that were told as new are those seen, and stand in the file behind what it held
-- before, in the order in which they were told.
structure Booked (path : String) (content? : Option String) (start : LoggedDisk)
    (told : List (LocationPair × RaceVerdict)) (ledger : RaceLedger) (disk : Disk) : Prop where
  blacklist : ledger.blacklist = distinct (BugFile.load start path).1
  seen : ∀ pair, pair ∈ ledger.seen ↔ (pair, .new) ∈ told
  known : ∀ pair verdict, (pair, verdict) ∈ told → pair ∈ ledger.blacklist ∨ pair ∈ ledger.seen
  written : disk.Holds path (PlanLog.contentAfter content? (ledger.seen.map (·.text)))

section

variable {path : String} {content? : Option String} {start files : LoggedDisk}
  {told : List (LocationPair × RaceVerdict)} {ledger : RaceLedger} {pair : LocationPair}

theorem after_blacklist (ledger : RaceLedger) (pairs : List LocationPair) :
    (ledger.after pairs).blacklist = ledger.blacklist := by
  induction pairs generalizing ledger with
  | nil => rfl
  | cons pair rest ih =>
      rw [after, List.foldl_cons]
      exact (ih _).trans (ledger.record_blacklist pair)

theorem recordIn_of_blacklisted (h : pair ∈ ledger.blacklist) (bugFile : Option String)
    (files : LoggedDisk) : ledger.recordIn bugFile pair files = (.blacklisted, ledger, files) := by
  rw [recordIn, record, if_pos h]

-- A race that is known changes nothing.
theorem recordIn_of_known (h : pair ∈ ledger.blacklist ∨ pair ∈ ledger.seen)
    (bugFile : Option String) (files : LoggedDisk) :
    ∃ verdict, verdict ≠ .new ∧
      ledger.recordIn bugFile pair files = (verdict, ledger, files) := by
  by_cases hlisted : pair ∈ ledger.blacklist
  · exact ⟨.blacklisted, nofun, recordIn_of_blacklisted hlisted bugFile files⟩
  · refine ⟨.duplicate, nofun, ?_⟩
    rw [recordIn, record, if_neg hlisted, if_pos (h.resolve_left hlisted)]

theorem recordIn_of_new (h : ¬ (pair ∈ ledger.blacklist ∨ pair ∈ ledger.seen))
    (bugFile : Option String) (files : LoggedDisk) :
    (ledger.record pair).1 = .new ∧ ledger.recordIn bugFile pair files =
      (.new, { ledger with seen := ledger.seen ++ [pair] },
        BugFile.append files bugFile pair) := by
  rw [not_or] at h
  rw [recordIn, record, if_neg h.1, if_neg h.2]
  exact ⟨rfl, rfl⟩

theorem Booked.record (h : Booked path content? start told ledger files.disk)
    (pair : LocationPair) (hwrite : (ledger.record pair).1 = .new →
      (files.disk.appendLines path [pair.text]).1 = none) :
    Booked path content? start (told ++ [(pair, (ledger.recordIn (some path) pair files).1)])
      (ledger.recordIn (some path) pair files).2.1
      (ledger.recordIn (some path) pair files).2.2.disk := by
  by_cases hknown : pair ∈ ledger.blacklist ∨ pair ∈ ledger.seen
  · obtain ⟨verdict, hverdict, hrecord⟩ := recordIn_of_known hknown (some path) files
    rw [hrecord]
    refine ⟨h.blacklist, fun other => ?_, fun other told hm => ?_, h.written⟩
    · simp [h.seen, Ne.symm hverdict]
    · rcases List.mem_append.mp hm with hm | hm
      · exact h.known other told hm
      · obtain ⟨rfl, -⟩ := Prod.mk.inj (List.mem_singleton.mp hm)
        exact hknown
  · obtain ⟨hnew, hrecord⟩ := recordIn_of_new hknown (some path) files
    rw [hrecord]
    refine ⟨h.blacklist, fun other => ?_, fun other told hm => ?_, ?_⟩
    · simp [h.seen]
    · rcases List.mem_append.mp hm with hm | hm
      · exact (h.known other told hm).imp_right (List.mem_append_left _)
      · obtain ⟨rfl, -⟩ := Prod.mk.inj (List.mem_singleton.mp hm)
        exact .inr (List.mem_append_right _ List.mem_cons_self)
    · rw [List.map_append]
      exact PlanLog.holds_appendLines h.written (List.cons_ne_nil _ _) (hwrite hnew) "bug"

theorem Kept.booked (h : Kept path start told ledger files)
    (hstart : start.disk.Holds path content?) :
    Booked path content? start told ledger files.disk := by
  induction h with
  | start =>
      refine ⟨rfl, fun _ => ⟨nofun, nofun⟩, nofun, ?_⟩
      rw [BugFile.disk_load]
      exact hstart
  | record pair _ writes ih => exact ih.record pair writes
  | meanwhile changed _ same ih =>
      exact ⟨ih.blacklist, ih.seen, ih.known, (same _).mp ih.written⟩

-- Races stay confirmed: the next run knows the races of the old blacklist and those that were
-- new in this one, and whatever it records meanwhile, it refuses every race of this run, whichever
-- of its sides comes first, and writes nothing for it.
theorem races_stay_confirmed {next : LoggedDisk} (hstart : start.disk.Holds path content?)
    (hfinished : ∀ content ∈ content?, Text.IsFinished content.toList)
    (hrun : Kept path start told ledger files)
    (hkeys : ∀ pair verdict, (pair, verdict) ∈ told → pair.Recordable)
    (hnext : files.disk.SameFile next.disk path) :
    (∀ pair, pair ∈ (BugFile.load next path).1 ↔
      pair ∈ (BugFile.load start path).1 ∨ (pair, .new) ∈ told) ∧
    ∀ a b verdict, (LocationPair.of a b, verdict) ∈ told →
      ∀ (others : List LocationPair) (later : LoggedDisk),
        let ledger := (ofBlacklist (BugFile.load next path).1).after others
        ledger.recordIn (some path) (.of a b) later = (.blacklisted, ledger, later) ∧
          ledger.recordIn (some path) (.of b a) later = (.blacklisted, ledger, later) := by
  have hbooked := hrun.booked hstart
  have hends : Text.IsFinished (content?.getD "").toList := by
    cases content? with
    | none => exact nofun
    | some content => exact hfinished content rfl
  have hseen : ∀ pair ∈ ledger.seen, pair.Recordable := fun pair hm =>
    hkeys pair .new ((hbooked.seen pair).mp hm)
  have hloaded : ∀ pair, pair ∈ (BugFile.load next path).1 ↔
      pair ∈ (BugFile.load start path).1 ∨ pair ∈ ledger.seen := fun pair =>
    BugFile.mem_load_of_written hends hseen hstart ((hnext _).mp hbooked.written)
  refine ⟨fun pair => by rw [hloaded, hbooked.seen], ?_⟩
  intro a b verdict hm others later
  have hlisted : LocationPair.of a b ∈
      ((ofBlacklist (BugFile.load next path).1).after others).blacklist := by
    rw [after_blacklist]
    refine mem_distinct.mpr ((hloaded _).mpr ?_)
    rcases hbooked.known _ _ hm with hold | hnew
    · rw [hbooked.blacklist, mem_distinct] at hold
      exact .inl hold
    · exact .inr hnew
  refine ⟨recordIn_of_blacklisted hlisted _ _, ?_⟩
  rw [LocationPair.of_comm b a]
  exact recordIn_of_blacklisted hlisted _ _

end

-- A file with a comment and a line that is no race, and a run that records a new race in both
-- orders and then the race that the file holds.
namespace Sample

def content : String := "#\nno race\nPut|M|4 Get|M|3\n"

def stored : LoggedDisk := BugFile.Sample.files content

def added : LocationPair := BugFile.Sample.added

def known : LocationPair := BugFile.Sample.known

def first : RaceVerdict × RaceLedger × LoggedDisk :=
  (ofBlacklist (BugFile.load stored "bugs.log").1).recordIn (some "bugs.log") added
    (BugFile.load stored "bugs.log").2

def second : RaceVerdict × RaceLedger × LoggedDisk :=
  first.2.1.recordIn (some "bugs.log") (.of "Add|M|2" "Add|M|1") first.2.2

def third : RaceVerdict × RaceLedger × LoggedDisk :=
  second.2.1.recordIn (some "bugs.log") known second.2.2

theorem kept : Kept "bugs.log" stored
    [(added, first.1), (.of "Add|M|2" "Add|M|1", second.1), (known, third.1)]
    third.2.1 third.2.2 := by
  have hfirst : Kept "bugs.log" stored [(added, first.1)] first.2.1 first.2.2 :=
    .record added .start (by decide +kernel)
  have hsecond : Kept "bugs.log" stored [(added, first.1), (.of "Add|M|2" "Add|M|1", second.1)]
      second.2.1 second.2.2 := .record _ hfirst (by decide +kernel)
  exact .record known hsecond (by decide +kernel)

theorem recordable : ∀ pair verdict, (pair, verdict) ∈
    [(added, first.1), (.of "Add|M|2" "Add|M|1", second.1), (known, third.1)] →
    pair.Recordable := by
  intro pair verdict hm
  simp only [List.mem_cons, List.not_mem_nil, or_false, Prod.mk.injEq] at hm
  rcases hm with ⟨rfl, -⟩ | ⟨rfl, -⟩ | ⟨rfl, -⟩
  · decide +kernel
  · decide +kernel
  · decide +kernel

end Sample

-- The race that was told once and written once is known to the next run.
theorem races_stay_confirmed_of_three :
    [Sample.first.1, Sample.second.1, Sample.third.1] = [.new, .duplicate, .blacklisted] ∧
      Sample.third.2.2.disk.read "bugs.log" =
        .ok "#\nno race\nPut|M|4 Get|M|3\nAdd|M|2 Add|M|1\n" ∧
      Sample.added ∈ (BugFile.load Sample.third.2.2 "bugs.log").1 ∧
      let ledger := ofBlacklist (BugFile.load Sample.third.2.2 "bugs.log").1
      ledger.recordIn (some "bugs.log") (.of "Add|M|2" "Add|M|1") Sample.third.2.2 =
        (.blacklisted, ledger, Sample.third.2.2) := by
  have hstored : Sample.stored.disk.Holds "bugs.log" (some Sample.content) := by
    unfold Disk.Holds
    decide +kernel
  have hfinished : ∀ content ∈ some Sample.content, Text.IsFinished content.toList := by
    intro content hm
    rw [← Option.some.inj (Option.mem_def.mp hm)]
    decide +kernel
  obtain ⟨hloaded, hknown⟩ := races_stay_confirmed hstored hfinished Sample.kept
    Sample.recordable fun _ => Iff.rfl
  have hverdicts : [Sample.first.1, Sample.second.1, Sample.third.1] =
      [.new, .duplicate, .blacklisted] := by decide +kernel
  refine ⟨hverdicts, by decide +kernel, ?_, ?_⟩
  · rw [hloaded, (List.cons.inj hverdicts).1]
    exact .inr List.mem_cons_self
  · exact (hknown "Add|M|1" "Add|M|2" Sample.first.1 List.mem_cons_self [] Sample.third.2.2).2

end RaceLedger

end DelayInjection
