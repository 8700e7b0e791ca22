import Mathlib.Data.List.Basic
import DelayInjection.Persist.PlanFile
import DelayInjection.Proofs.Text.Lines

-- What a text says, line by line. A line gives an item or it does not, whatever stands around it.
-- The loops of the readers of plan files and of bug files all go by this report.

namespace DelayInjection

-- The items of a text, and its malformed lines by number.
structure LineReport (α : Type) where
  items : List α := []
  malformed : List (Nat × LineError) := []

namespace LineReport

variable {α : Type}

def addLine (read : List Char → Except LineError (Option α)) (report : LineReport α)
    (line : Nat × List Char) : LineReport α :=
  match read line.2 with
  | .ok none => report
  | .ok (some item) => { report with items := report.items ++ [item] }
  | .error reason => { report with malformed := report.malformed ++ [(line.1, reason)] }

def ofText (read : List Char → Except LineError (Option α)) (content : String) : LineReport α :=
  (Text.numbered (Text.lines content.toList)).foldl (addLine read) {}

-- What is left of a report if the first malformed line ends the reading.
def strict (report : LineReport α) : Except PersistenceError (List α) :=
  match report.malformed with
  | [] => .ok report.items
  | (line, reason) :: _ => .error (.malformedLine line reason)

def warnings (report : LineReport α) (kind path : String) : List LogLine :=
  report.malformed.map fun line => skippedLine kind path line.1 line.2

variable {read : List Char → Except LineError (Option α)}

-- Lines that all read as items give these items, and none of them is malformed.
theorem foldl_addLine {text : α → List Char} {items : List α}
    (h : ∀ item ∈ items, read (text item) = .ok (some item)) {lines : List (Nat × List Char)}
    (hlines : lines.map Prod.snd = items.map text) (report : LineReport α) :
    lines.foldl (addLine read) report = { report with items := report.items ++ items } := by
  induction items generalizing lines report with
  | nil =>
      obtain rfl := List.map_eq_nil_iff.mp hlines
      rw [List.foldl_nil, List.append_nil]
  | cons item rest ih =>
      obtain ⟨line, others, rfl, hline, hothers⟩ := List.map_eq_cons_iff.mp hlines
      have hread := h item List.mem_cons_self
      rw [← hline] at hread
      rw [List.foldl_cons, ih (fun other hm => h other (List.mem_cons_of_mem _ hm)) hothers]
      simp only [addLine, hread, List.append_assoc, List.singleton_append]

theorem map_snd_numbered (lines : List (List Char)) :
    (Text.numbered lines).map Prod.snd = lines := by
  apply List.ext_getElem <;> simp [Text.numbered]

theorem ofText_of_lines {text : α → List Char} {items : List α}
    (h : ∀ item ∈ items, read (text item) = .ok (some item)) {content : String}
    (hlines : Text.lines content.toList = items.map text) :
    ofText read content = { items } := by
  rw [ofText, hlines, foldl_addLine h (map_snd_numbered _)]
  rfl

-- The item that a line gives; blank lines, comments and malformed lines give none.
def item? (read : List Char → Except LineError (Option α)) (line : List Char) : Option α :=
  match read line with
  | .ok item? => item?
  | .error _ => none

theorem item?_eq_some_iff {line : List Char} {item : α} :
    item? read line = some item ↔ read line = .ok (some item) := by
  unfold item?
  split
  · rename_i found hread
    rw [hread, Except.ok.injEq]
  · rename_i reason hread
    rw [hread]
    exact ⟨nofun, nofun⟩

theorem items_addLine (report : LineReport α) (line : Nat × List Char) :
    (addLine read report line).items = report.items ++ (item? read line.2).toList := by
  cases hread : read line.2 with
  | error reason => simp [addLine, item?, hread]
  | ok found => cases found <;> simp [addLine, item?, hread]

theorem items_foldl_addLine (lines : List (Nat × List Char)) (report : LineReport α) :
    (lines.foldl (addLine read) report).items =
      report.items ++ (lines.map Prod.snd).filterMap (item? read) := by
  induction lines generalizing report with
  | nil => simp
  | cons line rest ih =>
      rw [List.foldl_cons, ih, items_addLine, List.append_assoc, List.map_cons]
      cases hitem : item? read line.2 <;> simp [hitem]

theorem items_ofText (content : String) :
    (ofText read content).items = (Text.lines content.toList).filterMap (item? read) := by
  rw [ofText, items_foldl_addLine, map_snd_numbered]
  rfl

theorem mem_items_ofText_iff {content : String} {item : α} :
    item ∈ (ofText read content).items ↔
      ∃ line ∈ Text.lines content.toList, read line = .ok (some item) := by
  simp only [items_ofText, List.mem_filterMap, item?_eq_some_iff]

-- The number of a malformed line, and what is wrong with it.
def malformed? (read : List Char → Except LineError (Option α)) (line : Nat × List Char) :
    Option (Nat × LineError) :=
  match read line.2 with
  | .error reason => some (line.1, reason)
  | .ok _ => none

theorem malformed_addLine (report : LineReport α) (line : Nat × List Char) :
    (addLine read report line).malformed =
      report.malformed ++ (malformed? read line).toList := by
  cases hread : read line.2 with
  | error reason => simp [addLine, malformed?, hread]
  | ok found => cases found <;> simp [addLine, malformed?, hread]

theorem malformed_foldl_addLine (lines : List (Nat × List Char)) (report : LineReport α) :
    (lines.foldl (addLine read) report).malformed =
      report.malformed ++ lines.filterMap (malformed? read) := by
  induction lines generalizing report with
  | nil => simp
  | cons line rest ih =>
      rw [List.foldl_cons, ih, malformed_addLine, List.append_assoc]
      cases hline : malformed? read line <;> simp [hline]

-- The malformed lines of a text in its order.
theorem malformed_ofText (content : String) :
    (ofText read content).malformed =
      (Text.numbered (Text.lines content.toList)).filterMap (malformed? read) := by
  rw [ofText, malformed_foldl_addLine]
  rfl

-- A line that is no malformed one.
def Reads (read : List Char → Except LineError (Option α)) (line : List Char) : Prop :=
  ∃ item?, read line = .ok item?

theorem not_reads_iff {line : List Char} :
    ¬ Reads read line ↔ ∃ reason, read line = .error reason := by
  unfold Reads
  cases read line <;> simp

theorem malformed?_eq_none_iff {line : Nat × List Char} :
    malformed? read line = none ↔ Reads read line.2 := by
  unfold malformed? Reads
  cases read line.2 <;> simp

theorem numbered_append_cons (front : List (List Char)) (line : List Char)
    (back : List (List Char)) : ∃ behind,
    Text.numbered (front ++ line :: back) =
      Text.numbered front ++ (front.length + 1, line) :: behind := by
  simp [Text.numbered, List.mapIdx_append, List.mapIdx_cons]

theorem forall_mem_numbered {P : List Char → Prop} {lines : List (List Char)}
    (h : ∀ line ∈ lines, P line) : ∀ line ∈ Text.numbered lines, P line.2 := by
  intro line hm
  refine h line.2 ?_
  rw [← map_snd_numbered lines]
  exact List.mem_map_of_mem hm

-- A text in which every line reads has no malformed lines.
theorem malformed_of_reads {content : String}
    (h : ∀ line ∈ Text.lines content.toList, Reads read line) :
    (ofText read content).malformed = [] := by
  rw [malformed_ofText, List.filterMap_eq_nil_iff]
  exact fun line hm => malformed?_eq_none_iff.mpr (forall_mem_numbered h line hm)

-- The first malformed line comes behind lines that read.
theorem malformed_of_first {content : String} {front back : List (List Char)}
    {line : List Char} {reason : LineError}
    (hlines : Text.lines content.toList = front ++ line :: back)
    (hfront : ∀ other ∈ front, Reads read other) (hline : read line = .error reason) :
    ∃ others, (ofText read content).malformed = (front.length + 1, reason) :: others := by
  obtain ⟨behind, hnumbered⟩ := numbered_append_cons front line back
  have hnone : (Text.numbered front).filterMap (malformed? read) = [] := by
    rw [List.filterMap_eq_nil_iff]
    exact fun other hm => malformed?_eq_none_iff.mpr (forall_mem_numbered hfront other hm)
  refine ⟨behind.filterMap (malformed? read), ?_⟩
  rw [malformed_ofText, hlines, hnumbered, List.filterMap_append, hnone, List.nil_append,
    List.filterMap_cons_some]
  rw [malformed?, hline]

theorem strict_eq_ok_iff {report : LineReport α} {items : List α} :
    report.strict = .ok items ↔ report.malformed = [] ∧ report.items = items := by
  unfold strict
  split
  · rename_i hnone
    simp [hnone]
  · rename_i hsome
    simp [hsome]

theorem strict_of_reads {content : String}
    (h : ∀ line ∈ Text.lines content.toList, Reads read line) :
    (ofText read content).strict = .ok (ofText read content).items := by
  rw [strict, malformed_of_reads h]

-- The strict reader stops at the first malformed line and tells its number.
theorem strict_of_first {content : String} {front back : List (List Char)} {line : List Char}
    {reason : LineError} (hlines : Text.lines content.toList = front ++ line :: back)
    (hfront : ∀ other ∈ front, Reads read other) (hline : read line = .error reason) :
    (ofText read content).strict = .error (.malformedLine (front.length + 1) reason) := by
  obtain ⟨others, hmalformed⟩ := malformed_of_first hlines hfront hline
  rw [strict, hmalformed]

-- Either every line of a text reads, or one of them is the first that does not.
theorem reads_or_first (read : List Char → Except LineError (Option α))
    (lines : List (List Char)) :
    (∀ line ∈ lines, Reads read line) ∨
      ∃ front line back reason, lines = front ++ line :: back ∧
        (∀ other ∈ front, Reads read other) ∧ read line = .error reason := by
  induction lines with
  | nil => exact .inl nofun
  | cons line rest ih =>
      by_cases hline : Reads read line
      · rcases ih with hrest | ⟨front, bad, back, reason, rfl, hfront, hbad⟩
        · exact .inl (List.forall_mem_cons.mpr ⟨hline, hrest⟩)
        · exact .inr ⟨line :: front, bad, back, reason, rfl,
            List.forall_mem_cons.mpr ⟨hline, hfront⟩, hbad⟩
      · obtain ⟨reason, hreason⟩ := not_reads_iff.mp hline
        exact .inr ⟨[], line, rest, reason, rfl, nofun, hreason⟩

-- A text without its malformed lines.
def wellFormed (read : List Char → Except LineError (Option α)) (content : String) : String :=
  String.ofList
    ((Text.rawLines content.toList).filter fun line => (read (Text.withoutEnd line)).isOk).flatten

theorem lines_wellFormed (content : String) :
    Text.lines (wellFormed read content).toList =
      (Text.lines content.toList).filter fun line => (read line).isOk := by
  rw [wellFormed, String.toList_ofList]
  exact Text.lines_flatten_filter (fun line => (read line).isOk) content.toList

-- What is left says what the text said, and every line of it reads.
theorem ofText_wellFormed (content : String) :
    ofText read (wellFormed read content) = { items := (ofText read content).items } := by
  have hmalformed : (ofText read (wellFormed read content)).malformed = [] := by
    apply malformed_of_reads
    intro line hm
    rw [lines_wellFormed] at hm
    have hok := (List.mem_filter.mp hm).2
    unfold Reads
    cases hread : read line with
    | ok item? => exact ⟨item?, rfl⟩
    | error reason =>
        rw [hread] at hok
        cases hok
  have hitems : (ofText read (wellFormed read content)).items = (ofText read content).items := by
    rw [items_ofText, items_ofText, lines_wellFormed, List.filterMap_filter]
    apply List.filterMap_congr
    intro line _
    unfold item?
    cases read line <;> simp [Except.isOk, Except.toBool]
  cases hreport : ofText read (wellFormed read content) with
  | mk items malformed =>
      rw [hreport] at hmalformed hitems
      rw [show malformed = [] from hmalformed, show items = _ from hitems]

section

variable (read) {β : Type} (add : β → α → β) (tell : Nat → LineError → LogLine)

-- What a forgiving loop has made of the lines that a report is about.
def taken (start : β × LoggedDisk) (report : LineReport α) : β × LoggedDisk :=
  (report.items.foldl add start.1,
    { start.2 with
      log := start.2.log ++ report.malformed.map fun line => tell line.1 line.2 })

-- A loop that takes the items of lines and writes of malformed ones to the log.
theorem foldl_forgiving
    {step : β × LoggedDisk → Nat × List Char → β × LoggedDisk}
    (hnone : ∀ state line, read line.2 = .ok none → step state line = state)
    (hsome : ∀ state line item, read line.2 = .ok (some item) →
      step state line = (add state.1 item, state.2))
    (herror : ∀ state line reason, read line.2 = .error reason →
      step state line = (state.1, state.2.write (tell line.1 reason)))
    (start : β × LoggedDisk) (content : String) :
    (Text.numbered (Text.lines content.toList)).foldl step start =
      taken add tell start (ofText read content) := by
  have hstep : ∀ report line,
      step (taken add tell start report) line =
        taken add tell start (addLine read report line) := by
    intro report line
    unfold addLine
    split
    · rename_i hread
      exact hnone _ line hread
    · rename_i item hread
      rw [hsome _ line item hread, taken, taken, List.foldl_append]
      rfl
    · rename_i reason hread
      rw [herror _ line reason hread, taken, taken, List.map_append, ← List.append_assoc]
      rfl
  have hstart : taken add tell start ({} : LineReport α) = start := by simp [taken]
  conv_lhs => rw [← hstart]
  exact List.foldl_hom _ hstep

-- Reading goes on while no line was malformed.
theorem strict_addLine {step : β → Nat × List Char → Except PersistenceError β}
    (hnone : ∀ state line, read line.2 = .ok none → step state line = .ok state)
    (hsome : ∀ state line item, read line.2 = .ok (some item) →
      step state line = .ok (add state item))
    (herror : ∀ state line reason, read line.2 = .error reason →
      step state line = .error (.malformedLine line.1 reason))
    (start : β) (report : LineReport α) (line : Nat × List Char) :
    ((report.strict.map fun items => items.foldl add start) >>= (step · line)) =
      (addLine read report line).strict.map fun items => items.foldl add start := by
  cases report with
  | mk items malformed =>
      cases malformed with
      | cons first others =>
          unfold addLine
          split <;> rfl
      | nil =>
          unfold addLine
          split
          · rename_i hread
            exact hnone _ line hread
          · rename_i item hread
            refine (hsome _ line item hread).trans ?_
            simp [strict, Except.map]
          · rename_i reason hread
            exact herror _ line reason hread

-- A loop that takes the items of lines and ends at the first malformed one.
theorem foldlM_strict {step : β → Nat × List Char → Except PersistenceError β}
    (hnone : ∀ state line, read line.2 = .ok none → step state line = .ok state)
    (hsome : ∀ state line item, read line.2 = .ok (some item) →
      step state line = .ok (add state item))
    (herror : ∀ state line reason, read line.2 = .error reason →
      step state line = .error (.malformedLine line.1 reason))
    (start : β) (content : String) :
    (Text.numbered (Text.lines content.toList)).foldlM step start =
      (ofText read content).strict.map fun items => items.foldl add start := by
  have hloop : ∀ (lines : List (Nat × List Char)) (report : LineReport α),
      ((report.strict.map fun items => items.foldl add start) >>= (lines.foldlM step ·)) =
        (lines.foldl (addLine read) report).strict.map fun items => items.foldl add start := by
    intro lines
    induction lines with
    | nil =>
        intro report
        rw [List.foldl_nil]
        cases report.strict <;> rfl
    | cons line rest ih =>
        intro report
        rw [List.foldl_cons, ← ih, ← strict_addLine read add hnone hsome herror, bind_assoc]
        simp only [List.foldlM_cons]
  exact hloop _ {}

end

end LineReport

namespace PlanFile

def report (content : String) : LineReport PlanLine := .ofText PlanLine.ofChars content

theorem foldl_append_items (items pairs : List PlanLine) :
    items.foldl (fun pairs pair => pairs ++ [pair]) pairs = pairs ++ items := by
  induction items generalizing pairs with
  | nil => simp
  | cons item rest ih => simp [ih]

-- The forgiving loop over the lines of a plan file.
theorem foldl_readLine (path : String) (files : LoggedDisk) (content : String) :
    (Text.numbered (Text.lines content.toList)).foldl (readLine path) ([], files) =
      ((report content).items,
        { files with log := files.log ++ (report content).warnings "plan" path }) := by
  rw [LineReport.foldl_forgiving PlanLine.ofChars (fun pairs pair => pairs ++ [pair])
    (skippedLine "plan" path)]
  · rw [LineReport.taken, foldl_append_items]
    rfl
  · intro state line hread
    simp only [readLine, hread]
  · intro state line item hread
    simp only [readLine, hread]
  · intro state line reason hread
    simp only [readLine, hread]

-- The strict loop over the lines of a plan file.
theorem foldlM_readLineStrict (content : String) :
    (Text.numbered (Text.lines content.toList)).foldlM readLineStrict [] =
      (report content).strict := by
  rw [LineReport.foldlM_strict PlanLine.ofChars fun pairs pair => pairs ++ [pair]]
  · simp only [foldl_append_items, List.nil_append]
    rw [report]
    cases (LineReport.ofText PlanLine.ofChars content).strict <;> rfl
  · intro state line hread
    rw [readLineStrict, hread]
    exact congrArg Except.ok (List.append_nil state)
  · intro state line item hread
    rw [readLineStrict, hread]
    rfl
  · intro state line reason hread
    rw [readLineStrict, hread]
    rfl

end PlanFile

namespace BugFile

def report (content : String) : LineReport LocationPair := .ofText BugLine.ofChars content

-- The forgiving loop over the lines of a bug file, which makes a set.
theorem foldl_readLine (path : String) (files : LoggedDisk) (content : String) :
    (Text.numbered (Text.lines content.toList)).foldl (readLine path) ([], files) =
      ((report content).items.foldl (fun races pair => races.insert pair) [],
        { files with log := files.log ++ (report content).warnings "bug" path }) := by
  rw [LineReport.foldl_forgiving BugLine.ofChars (fun races pair => races.insert pair)
    (skippedLine "bug" path)]
  · rfl
  · intro state line hread
    simp only [readLine, hread]
  · intro state line item hread
    simp only [readLine, hread]
  · intro state line reason hread
    simp only [readLine, hread]

-- The strict loop over the lines of a bug file, which lists every pair where it comes first.
theorem foldlM_readLineStrict (content : String) :
    (Text.numbered (Text.lines content.toList)).foldlM readLineStrict [] =
      (report content).strict.map fun items =>
        items.foldl (fun pairs pair => if pairs.contains pair then pairs else pairs ++ [pair])
          [] := by
  rw [LineReport.foldlM_strict BugLine.ofChars fun pairs pair =>
    if pairs.contains pair then pairs else pairs ++ [pair]]
  · rfl
  · intro state line hread
    rw [readLineStrict, hread]
    rfl
  · intro state line item hread
    rw [readLineStrict, hread]
    rfl
  · intro state line reason hread
    rw [readLineStrict, hread]
    rfl

end BugFile

end DelayInjection
