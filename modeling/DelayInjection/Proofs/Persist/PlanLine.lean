import DelayInjection.Persist.Line
import DelayInjection.Proofs.Persist.PlanPoint

-- Plan lines that are read back as they were written. The two sides are cut at the first
-- separator, so that only the left one is kept from holding it, or from looking like a comment.

namespace DelayInjection

namespace PlanPoint

-- A point that is read back from a text of its own: it names a callee, its text does not begin
-- with a blank, and neither name holds the separator of fields.
structure Readable (point : PlanPoint) : Prop where
  named : point.callee ≠ ""
  begins : ∀ c ∈ point.callee.toList.head?, Text.isBlank c = false
  callee : '|' ∉ point.callee.toList
  caller : '|' ∉ point.caller.toList

-- A point that may stand on the left of a line: neither name holds the separator of sides, and
-- its text does not begin a comment.
structure Leads (point : PlanPoint) : Prop where
  callee : ¬ PlanLine.separator <:+: point.callee.toList
  caller : ¬ PlanLine.separator <:+: point.caller.toList
  begins : '#' ∉ point.callee.toList.head?

end PlanPoint

namespace PlanLine

open PlanPoint

-- Pairs of points whose line is read back.
structure ReadsBack (a b : PlanPoint) : Prop where
  left : a.Readable
  right : b.Readable
  leads : a.Leads

theorem toList_format (a b : String) :
    (format a b).toList = a.toList ++ (separator ++ b.toList) := by
  simp [format]

-- The text of a point has no blank at its ends.
theorem head?_text {point : PlanPoint} (h : point.Readable) (back : List Char) :
    (point.text.toList ++ back).head? = point.callee.toList.head? := by
  rw [toList_text]
  cases hcallee : point.callee.toList with
  | nil => exact absurd (String.toList_eq_nil_iff.mp hcallee) h.named
  | cons c rest => rfl

theorem getLast?_text (front : List Char) (point : PlanPoint) :
    ∀ c ∈ (front ++ point.text.toList).getLast?, Text.isBlank c = false := by
  obtain ⟨last, hlast⟩ := Option.isSome_iff_exists.mp
    (List.getLast?_isSome.mpr (Text.integer_ne_nil point.localHits.toInt))
  have hend : (front ++ point.text.toList).getLast? = some last := by
    rw [toList_text, numbers]
    simp [List.getLast?_append, List.getLast?_cons, hlast]
  intro c hc
  obtain rfl := Option.some.inj (hend.symm.trans hc)
  exact Text.isBlank_of_mem_integer last (List.mem_of_mem_getLast? hlast)

theorem trim_text {point : PlanPoint} (h : point.Readable) :
    Text.trim point.text.toList = point.text.toList := by
  apply Text.trim_eq_self
  · rw [← List.append_nil point.text.toList, head?_text h]
    exact h.begins
  · exact getLast?_text [] point

theorem side_text {point : PlanPoint} (h : point.Readable) :
    side point.text.toList = .ok point := by
  rw [side, trim_text h, ofChars_text h.named h.callee h.caller]
  rfl

theorem side_ok {text : List Char} {point : PlanPoint} (h : side text = .ok point) :
    PlanPoint.ofChars (Text.trim text) = .ok point := by
  unfold side at h
  cases hside : PlanPoint.ofChars (Text.trim text) with
  | ok found =>
      rw [hside] at h
      exact congrArg Except.ok (Except.ok.inj h)
  | error e =>
      rw [hside] at h
      cases h

-- No separator begins on the left side: its names hold none, and it ends in a digit.
theorem text_without_separator {a : PlanPoint} (h : a.Leads) :
    ¬ separator <:+: a.text.toList ++ separator.dropLast := by
  have hbar : '|' ∉ separator := by decide
  have hnumbers : ¬ separator <:+: a.numbers ++ separator.dropLast := by
    -- the separator has two spaces, but only one follows the numbers
    have hspace : ∀ n : Int, ' ' ∉ Text.integer n := fun n hm =>
      Text.forall_mem_integer (P := (· ≠ ' ')) (by decide) (by decide) ' ' hm rfl
    have hcount : (a.numbers ++ separator.dropLast).count ' ' = 1 := by
      simp [numbers, List.count_append, List.count_eq_zero_of_not_mem (hspace _), separator]
    intro hin
    have hle := hin.sublist.count_le ' '
    rw [hcount] at hle
    exact absurd hle (by decide)
  rw [toList_text, List.append_assoc, List.cons_append, List.append_assoc, List.cons_append,
    Text.infix_append_cons_iff hbar, Text.infix_append_cons_iff hbar]
  rintro (hin | hin | hin)
  · exact h.callee hin
  · exact h.caller hin
  · exact hnumbers hin

theorem parse_format {a b : PlanPoint} (h : ReadsBack a b) :
    parse (format a.text b.text) = .ok (some (a, b)) := by
  have hhead := head?_text h.left (separator ++ b.text.toList)
  have htrim : Text.trim (format a.text b.text).toList = (format a.text b.text).toList := by
    rw [toList_format]
    apply Text.trim_eq_self
    · rw [hhead]
      exact h.left.begins
    · rw [← List.append_assoc]
      exact getLast?_text _ b
  have hskip : isSkipped (format a.text b.text).toList = false := by
    unfold isSkipped
    rw [htrim, toList_format]
    cases hline : a.text.toList ++ (separator ++ b.text.toList) with
    | nil =>
        rw [hline] at hhead
        have hempty := String.toList_eq_nil_iff.mp (List.head?_eq_none_iff.mp hhead.symm)
        exact absurd hempty h.left.named
    | cons c rest =>
        rw [hline] at hhead
        have hc : c ≠ '#' := by
          rintro rfl
          exact h.leads.begins hhead.symm
        simpa using hc
  have hcut : Text.splitOnce separator (a.text.toList ++ (separator ++ b.text.toList)) =
      some (a.text.toList, b.text.toList) :=
    Text.splitOnce_append (by decide) (text_without_separator h.leads)
  rw [parse, ofChars, hskip, htrim, toList_format, hcut]
  simp only [side_text h.left, side_text h.right, bind, Except.bind, Bool.false_eq_true, if_false]
  rfl

-- What a line that is read as a pair consists of.
theorem ofChars_ok {line : List Char} {a b : PlanPoint} (h : ofChars line = .ok (some (a, b))) :
    isSkipped line = false ∧ ∃ left right,
      Text.splitOnce separator (Text.trim line) = some (left, right) ∧
        side left = .ok a ∧ side right = .ok b := by
  unfold ofChars at h
  split at h
  · cases Except.ok.inj h
  · rename_i hskip
    split at h
    · cases h
    · rename_i left right hcut
      simp only [bind, Except.bind] at h
      split at h
      · cases h
      · rename_i hleft
        split at h
        · cases h
        · rename_i hright
          obtain ⟨rfl, rfl⟩ := Prod.mk.inj (Option.some.inj (Except.ok.inj h))
          exact ⟨by simpa using hskip, left, right, hcut, hleft, hright⟩

theorem readable_of_side {text : List Char} {point : PlanPoint} (h : side text = .ok point) :
    point.Readable := by
  obtain ⟨hnamed, hcallee, hcaller, rest, htext⟩ := ofChars_names (side_ok h)
  refine ⟨hnamed, ?_, hcallee, hcaller⟩
  intro c hc
  apply Text.head?_trim text c
  rw [htext]
  exact Text.mem_head?_of_isPrefix (List.prefix_append _ _) hc

theorem leads_of_ofChars {line : List Char} {a b : PlanPoint}
    (h : ofChars line = .ok (some (a, b))) : a.Leads := by
  obtain ⟨hskip, left, right, hcut, hleft, -⟩ := ofChars_ok h
  obtain ⟨hline, hfirst⟩ := Text.splitOnce_eq_some hcut
  obtain ⟨hnamed, -, -, rest, hnames⟩ := ofChars_names (side_ok hleft)
  have hnone : ¬ separator <:+: Text.trim left := fun hin =>
    hfirst (by decide) (hin.trans (Text.trim_isInfix left))
  rw [hnames] at hnone
  refine ⟨fun hin => hnone (hin.trans (List.prefix_append _ _).isInfix), fun hin => hnone ?_, ?_⟩
  · -- the caller stands between two bars
    refine hin.trans ⟨a.callee.toList ++ ['|'], '|' :: rest, ?_⟩
    simp
  · -- the callee begins where the line begins
    intro hcomment
    cases left with
    | nil =>
        have hempty : Text.trim [] = [] := rfl
        rw [hempty] at hnames
        exact absurd hnames.symm (by simp)
    | cons c others =>
        have hc : c ∈ (Text.trim line).head? := by
          rw [hline]
          rfl
        have hbegins : c ∈ (Text.trim (c :: others)).head? :=
          Text.head?_trim_eq rfl (Text.head?_trim line c hc)
        rw [hnames] at hbegins
        have hsharp := Text.mem_head?_of_isPrefix
          (List.prefix_append a.callee.toList ('|' :: (a.caller.toList ++ '|' :: rest))) hcomment
        obtain rfl := Option.some.inj (hbegins.symm.trans hsharp)
        unfold isSkipped at hskip
        rw [hline] at hskip
        simp at hskip

theorem readsBack_of_parse {line : String} {a b : PlanPoint}
    (h : parse line = .ok (some (a, b))) : ReadsBack a b := by
  obtain ⟨-, left, right, -, hleft, hright⟩ := ofChars_ok h
  exact ⟨readable_of_side hleft, readable_of_side hright, leads_of_ofChars h⟩

-- Exactly the pairs that read back do so, and whatever is read from any line reads back.
theorem round_trip_exact :
    (∀ a b : PlanPoint,
      parse (format a.text b.text) = .ok (some (a, b)) ↔ ReadsBack a b) ∧
    ∀ (line : String) (a b : PlanPoint), parse line = .ok (some (a, b)) →
      ReadsBack a b ∧ parse (format a.text b.text) = .ok (some (a, b)) := by
  refine ⟨fun a b => ⟨readsBack_of_parse, parse_format⟩, fun line a b h => ?_⟩
  have hback := readsBack_of_parse h
  exact ⟨hback, parse_format hback⟩

-- On the right the text of a comment and a second separator are part of the name; blanks around
-- numbers are lost.
theorem round_trip_exact_of_comment :
    ∃ a b : PlanPoint, parse " List Add|\tMain |-12| 3|-4 ! #Put ! x||7|0|9\r" = .ok (some (a, b)) ∧
      b.callee = "#Put ! x" ∧ ReadsBack a b ∧
      format a.text b.text = "List Add|\tMain |-12|3|-4 ! #Put ! x||7|0|9" ∧
      parse (format a.text b.text) = .ok (some (a, b)) := by
  let left : PlanPoint :=
    { callee := "List Add", caller := "\tMain ", offset := -12, globalHits := 3, localHits := -4 }
  let right : PlanPoint :=
    { callee := "#Put ! x", caller := "", offset := 7, globalHits := 0, localHits := 9 }
  have hread : parse " List Add|\tMain |-12| 3|-4 ! #Put ! x||7|0|9\r" =
      .ok (some (left, right)) := by
    decide +kernel
  have hwritten : format left.text right.text = "List Add|\tMain |-12|3|-4 ! #Put ! x||7|0|9" := by
    decide +kernel
  obtain ⟨hback, hagain⟩ := round_trip_exact.2 _ left right hread
  exact ⟨left, right, hread, rfl, hback, hwritten, hagain⟩

end PlanLine

end DelayInjection
