import Mathlib.Data.List.Basic
import Mathlib.Data.List.TakeWhile
import DelayInjection.Text.Lines

-- The lines of a text. A line may be finished by a line feed or be cut off by the end, and the
-- lines of an append are those of its parts where the first part is finished.

namespace DelayInjection.Text

section

theorem linesFrom_append {line : List Char} (h : '\n' ∉ line) (current rest : List Char) :
    linesFrom current (line ++ '\n' :: rest) =
      dropReturn (current.reverse ++ line) :: linesFrom [] rest := by
  induction line generalizing current with
  | nil => rw [List.nil_append, linesFrom, if_pos rfl, List.append_nil]
  | cons c others ih =>
      rw [List.mem_cons, not_or] at h
      rw [List.cons_append, linesFrom, if_neg (Ne.symm h.1), ih h.2, List.reverse_cons,
        List.append_assoc, List.singleton_append]

-- What stands behind a line feed does not change the lines before it.
theorem linesFrom_append_feed (current front rest : List Char) :
    linesFrom current (front ++ '\n' :: rest) =
      linesFrom current (front ++ ['\n']) ++ lines rest := by
  induction front generalizing current with
  | nil => simp [linesFrom, lines]
  | cons c others ih =>
      simp only [List.cons_append, linesFrom]
      split
      · rw [ih, List.cons_append]
      · exact ih _

theorem feed_not_mem_of_mem_linesFrom {current text line : List Char} (hcurrent : '\n' ∉ current)
    (h : line ∈ linesFrom current text) : '\n' ∉ line := by
  induction text generalizing current with
  | nil =>
      rw [linesFrom] at h
      split at h
      · cases h
      · rw [List.mem_singleton.mp h, List.mem_reverse]
        exact hcurrent
  | cons c rest ih =>
      rw [linesFrom] at h
      split at h
      · rcases List.mem_cons.mp h with rfl | hm
        · intro hfeed
          refine hcurrent (List.mem_reverse.mp ?_)
          unfold dropReturn at hfeed
          split at hfeed
          · exact List.dropLast_subset _ hfeed
          · exact hfeed
        · exact ih List.not_mem_nil hm
      · rename_i hc
        exact ih (by simp [hcurrent, Ne.symm hc]) h

theorem feed_not_mem_of_mem_lines {text line : List Char} (h : line ∈ lines text) : '\n' ∉ line :=
  feed_not_mem_of_mem_linesFrom List.not_mem_nil h

-- Whether the last line of a text is finished, so that a next line may follow.
def IsFinished (text : List Char) : Prop := ∀ c ∈ text.getLast?, c = '\n'

instance : DecidablePred IsFinished := fun text =>
  decidable_of_iff (text.getLast?.all (· == '\n') = true) (by simp [IsFinished, Option.all_eq_true])

theorem lines_append {front : List Char} (h : IsFinished front) (rest : List Char) :
    lines (front ++ rest) = lines front ++ lines rest := by
  rcases List.eq_nil_or_concat front with rfl | ⟨before, last, rfl⟩
  · rfl
  · rw [List.concat_eq_append] at h ⊢
    obtain rfl : last = '\n' := h last (by simp)
    rw [List.append_assoc, List.singleton_append]
    exact linesFrom_append_feed [] before rest

theorem linesFrom_of_not_mem {text : List Char} (h : '\n' ∉ text) (current : List Char)
    (hne : current ≠ [] ∨ text ≠ []) : linesFrom current text = [current.reverse ++ text] := by
  induction text generalizing current with
  | nil =>
      obtain hcurrent := hne.resolve_right (· rfl)
      simp [linesFrom, hcurrent]
  | cons c rest ih =>
      rw [List.mem_cons, not_or] at h
      rw [linesFrom, if_neg (Ne.symm h.1), ih h.2 _ (.inl (List.cons_ne_nil _ _))]
      simp

-- The finished lines of a text, and what stands behind them.
def finished (text : List Char) : List Char := (text.reverse.dropWhile (· != '\n')).reverse

def unfinished (text : List Char) : List Char := (text.reverse.takeWhile (· != '\n')).reverse

theorem finished_append_unfinished (text : List Char) :
    finished text ++ unfinished text = text := by
  rw [finished, unfinished, ← List.reverse_append, List.takeWhile_append_dropWhile,
    List.reverse_reverse]

theorem isFinished_finished (text : List Char) : IsFinished (finished text) := by
  intro c hc
  rw [finished, List.getLast?_reverse] at hc
  have hfeed := List.head?_dropWhile_not (· != '\n') text.reverse
  rw [hc] at hfeed
  simpa using hfeed

theorem feed_not_mem_unfinished (text : List Char) : '\n' ∉ unfinished text := by
  intro hm
  rw [unfinished, List.mem_reverse] at hm
  simpa using List.mem_takeWhile_imp hm

theorem unfinished_of_isFinished {text : List Char} (h : IsFinished text) :
    unfinished text = [] := by
  rw [unfinished, List.reverse_eq_nil_iff]
  cases htext : text.reverse with
  | nil => rfl
  | cons last before =>
      obtain rfl : last = '\n' := h last (by rw [List.getLast?_eq_head?_reverse, htext]; rfl)
      rfl

-- Lines that were written one after the other are the lines that are read, unless one of them
-- holds a line feed or ends in a carriage return.
theorem lines_flatMap {items : List (List Char)}
    (h : ∀ line ∈ items, '\n' ∉ line ∧ line.getLast? ≠ some '\r') :
    lines (items.flatMap (· ++ ['\n'])) = items := by
  induction items with
  | nil => rfl
  | cons line rest ih =>
      obtain ⟨hfeed, hreturn⟩ := h line List.mem_cons_self
      have hrest := ih fun other hm => h other (List.mem_cons_of_mem _ hm)
      rw [lines] at hrest ⊢
      rw [List.flatMap_cons, List.append_assoc, List.singleton_append, linesFrom_append hfeed,
        hrest, List.reverse_nil, List.nil_append, dropReturn, if_neg hreturn]

end

-- The lines of a text with what ends them.
def rawLines : List Char → List (List Char)
  | [] => []
  | c :: rest =>
      if c = '\n' then [c] :: rawLines rest
      else
        match rawLines rest with
        | [] => [[c]]
        | line :: others => (c :: line) :: others

-- A line without what ends it.
def withoutEnd (line : List Char) : List Char :=
  if line.getLast? = some '\n' then dropReturn line.dropLast else line

section

-- A text is a finished line in front of another text, or a line that is cut off, or nothing.
theorem lines_induction {P : List Char → Prop} (hnil : P [])
    (hcut : ∀ line, '\n' ∉ line → line ≠ [] → P line)
    (hline : ∀ line rest, '\n' ∉ line → P rest → P (line ++ '\n' :: rest)) (text : List Char) :
    P text := by
  induction hlength : text.length using Nat.strong_induction_on generalizing text with
  | _ n ih =>
      by_cases hfeed : '\n' ∈ text
      · obtain ⟨line, rest, rfl, hplain⟩ := List.eq_append_cons_of_mem hfeed
        refine hline line rest hplain (ih rest.length ?_ rest rfl)
        rw [← hlength, List.length_append, List.length_cons]
        omega
      · by_cases hempty : text = []
        · exact hempty ▸ hnil
        · exact hcut text hfeed hempty

variable {line : List Char}

theorem rawLines_of_not_mem (h : '\n' ∉ line) (hne : line ≠ []) : rawLines line = [line] := by
  induction line with
  | nil => exact absurd rfl hne
  | cons c rest ih =>
      rw [List.mem_cons, not_or] at h
      rw [rawLines, if_neg (Ne.symm h.1)]
      by_cases hrest : rest = []
      · rw [hrest]
        rfl
      · rw [ih h.2 hrest]

theorem rawLines_append_cons (h : '\n' ∉ line) (rest : List Char) :
    rawLines (line ++ '\n' :: rest) = (line ++ ['\n']) :: rawLines rest := by
  induction line with
  | nil => rw [List.nil_append, rawLines, if_pos rfl, List.nil_append]
  | cons c others ih =>
      rw [List.mem_cons, not_or] at h
      rw [List.cons_append, rawLines, if_neg (Ne.symm h.1), ih h.2, List.cons_append]

theorem withoutEnd_of_not_mem (h : '\n' ∉ line) : withoutEnd line = line :=
  if_neg fun hlast => h (List.mem_of_mem_getLast? hlast)

theorem withoutEnd_append (line : List Char) : withoutEnd (line ++ ['\n']) = dropReturn line := by
  rw [withoutEnd, if_pos (by simp), List.dropLast_concat]

theorem lines_append_cons (h : '\n' ∉ line) (rest : List Char) :
    lines (line ++ '\n' :: rest) = dropReturn line :: lines rest :=
  linesFrom_append h [] rest

theorem lines_of_not_mem (h : '\n' ∉ line) (hne : line ≠ []) : lines line = [line] :=
  linesFrom_of_not_mem h [] (.inr hne)

-- The text that is left when some lines are taken out has the other lines.
theorem lines_flatten_filter (keep : List Char → Bool) (text : List Char) :
    lines ((rawLines text).filter fun line => keep (withoutEnd line)).flatten =
      (lines text).filter keep := by
  induction text using lines_induction with
  | hnil => rfl
  | hcut line hplain hne =>
      rw [rawLines_of_not_mem hplain hne, lines_of_not_mem hplain hne, List.filter_singleton,
        List.filter_singleton, withoutEnd_of_not_mem hplain]
      cases keep line with
      | true => exact (congrArg lines List.flatten_singleton).trans (lines_of_not_mem hplain hne)
      | false => rfl
  | hline line rest hplain ih =>
      rw [rawLines_append_cons hplain, lines_append_cons hplain, List.filter_cons,
        List.filter_cons, withoutEnd_append]
      cases keep (dropReturn line) with
      | true =>
          simp only [if_true, List.flatten_cons, List.append_assoc, List.singleton_append]
          rw [lines_append_cons hplain, ih]
      | false => simpa using ih

end

end DelayInjection.Text
