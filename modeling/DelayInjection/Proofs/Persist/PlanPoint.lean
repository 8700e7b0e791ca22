import DelayInjection.Persist.PlanPoint
import DelayInjection.Proofs.Text.Numeral

-- Which texts are read as a point, and what the others are refused for. The checks come in a fixed
-- order, and the first that fails gives the error.

namespace DelayInjection

namespace PlanPoint

-- What stands between the bars of a text with four of them.
structure Fields where
  callee : List Char
  caller : List Char
  offset : List Char
  globalHits : List Char
  localHits : List Char

def Fields.toList (fields : Fields) : List (List Char) :=
  [fields.callee, fields.caller, fields.offset, fields.globalHits, fields.localHits]

structure Fields.Cut (fields : Fields) (text : List Char) : Prop where
  joined : text = Text.joinWith ['|'] fields.toList
  plain : ∀ field ∈ fields.toList, '|' ∉ field

-- What comes of a text: the first thing that is wrong with it, or the point that it describes. The
-- names are taken as they stand, blanks included.
inductive Outcome (text : List Char) : Except Error PlanPoint → Prop
  | fieldCount (h : text.count '|' ≠ 4) : Outcome text (.error (.fieldCount (text.count '|' + 1)))
  | emptyCallee {fields : Fields} (cut : fields.Cut text) (h : fields.callee = []) :
      Outcome text (.error .emptyCallee)
  | offset {fields : Fields} (cut : fields.Cut text) (named : fields.callee ≠ [])
      (h : ∀ n : Int64, ¬ Text.HoldsNumber fields.offset n.toInt) :
      Outcome text (.error (.notNumber .offset (String.ofList fields.offset)))
  | offsetRange {fields : Fields} (cut : fields.Cut text) (named : fields.callee ≠ [])
      {value : Int64} (value_eq : Text.HoldsNumber fields.offset value.toInt)
      (h : ∀ n : Int32, n.toInt ≠ value.toInt) : Outcome text (.error (.offsetRange value.toInt))
  | globalHits {fields : Fields} (cut : fields.Cut text) (named : fields.callee ≠ [])
      {offset : Int32} (offset_eq : Text.HoldsNumber fields.offset offset.toInt)
      (h : ∀ n : Int64, ¬ Text.HoldsNumber fields.globalHits n.toInt) :
      Outcome text (.error (.notNumber .globalHits (String.ofList fields.globalHits)))
  | localHits {fields : Fields} (cut : fields.Cut text) (named : fields.callee ≠ [])
      {offset : Int32} (offset_eq : Text.HoldsNumber fields.offset offset.toInt)
      {globalHits : Int64} (globalHits_eq : Text.HoldsNumber fields.globalHits globalHits.toInt)
      (h : ∀ n : Int64, ¬ Text.HoldsNumber fields.localHits n.toInt) :
      Outcome text (.error (.notNumber .localHits (String.ofList fields.localHits)))
  | point {fields : Fields} (cut : fields.Cut text) (named : fields.callee ≠ [])
      {offset : Int32} (offset_eq : Text.HoldsNumber fields.offset offset.toInt)
      {globalHits : Int64} (globalHits_eq : Text.HoldsNumber fields.globalHits globalHits.toInt)
      {localHits : Int64} (localHits_eq : Text.HoldsNumber fields.localHits localHits.toInt) :
      Outcome text (.ok
        { callee := String.ofList fields.callee, caller := String.ofList fields.caller, offset,
          globalHits, localHits })

section

variable {text : List Char}

theorem splitAll_eq_toList_iff {fields : Fields} :
    Text.splitAll '|' text = fields.toList ↔ fields.Cut text := by
  constructor
  · intro h
    refine ⟨?_, fun field hm => Text.not_mem_of_mem_splitAll (h ▸ hm)⟩
    rw [← h, Text.joinWith_splitAll]
  · rintro ⟨rfl, hplain⟩
    exact Text.splitAll_joinWith (List.cons_ne_nil _ _) hplain

-- Four bars make five fields.
theorem count_eq_four_iff : text.count '|' = 4 ↔ ∃ fields : Fields, fields.Cut text := by
  simp only [← splitAll_eq_toList_iff]
  have hlength := Text.length_splitAll '|' text
  constructor
  · intro hcount
    rw [hcount] at hlength
    match hsplit : Text.splitAll '|' text, hlength with
    | [callee, caller, offset, globalHits, localHits], _ =>
        exact ⟨⟨callee, caller, offset, globalHits, localHits⟩, rfl⟩
  · rintro ⟨fields, hsplit⟩
    rw [hsplit] at hlength
    exact (Nat.succ.inj hlength).symm

theorem number_eq_ok_iff {field : NumberField} {n : Int64} :
    number field text = .ok n ↔ Text.HoldsNumber text n.toInt := by
  rw [← Text.integer?_trim_eq_some_iff, number]
  cases Text.integer? (Text.trim text) with
  | none => simp
  | some m =>
      rw [Option.bind_some, Option.some.injEq, eq_comm (a := m), ← Text.int64?_eq_some_iff]
      cases Text.int64? m <;> simp

theorem number_eq_error {field : NumberField} (h : ∀ n : Int64, ¬ Text.HoldsNumber text n.toInt) :
    number field text = .error (.notNumber field (String.ofList text)) := by
  cases hread : (Text.integer? (Text.trim text)).bind Text.int64? with
  | none => rw [number, hread]
  | some n =>
      have hok : number field text = .ok n := by rw [number, hread]
      exact absurd (number_eq_ok_iff.mp hok) (h n)

theorem offsetOf_eq_ok_iff {n : Int64} {offset : Int32} :
    offsetOf n = .ok offset ↔ offset.toInt = n.toInt := by
  rw [← Text.int32?_eq_some_iff, offsetOf]
  cases Text.int32? n.toInt <;> simp

theorem offsetOf_eq_error {n : Int64} (h : ∀ offset : Int32, offset.toInt ≠ n.toInt) :
    offsetOf n = .error (.offsetRange n.toInt) := by
  cases hread : Text.int32? n.toInt with
  | none => rw [offsetOf, hread]
  | some offset => exact absurd (Text.int32?_eq_some_iff.mp hread) (h offset)

private theorem ok_bind {ε α β : Type} (a : α) (next : α → Except ε β) :
    (Except.ok a >>= next) = next a := rfl

-- Every narrow number is a wide one.
theorem exists_toInt_eq (offset : Int32) : ∃ n : Int64, n.toInt = offset.toInt := by
  have hle := offset.le_toInt
  have hlt := offset.toInt_lt
  exact ⟨Int64.ofInt offset.toInt, Int64.toInt_ofInt_of_le (by omega) (by omega)⟩

-- An offset is read with more bits than it has, and then has to fit.
theorem offset_eq_ok {field : List Char} {offset : Int32}
    (h : Text.HoldsNumber field offset.toInt) :
    (number .offset field >>= offsetOf) = .ok offset := by
  obtain ⟨n, hn⟩ := exists_toInt_eq offset
  rw [number_eq_ok_iff.mpr (hn ▸ h)]
  exact offsetOf_eq_ok_iff.mpr hn.symm

-- The checks of the numbers, behind those of the fields and of the callee.
theorem ofChars_eq {fields : Fields} (cut : fields.Cut text) (named : fields.callee ≠ []) :
    ofChars text = (do
      let offset ← number .offset fields.offset >>= offsetOf
      let globalHits ← number .globalHits fields.globalHits
      let localHits ← number .localHits fields.localHits
      return { callee := String.ofList fields.callee, caller := String.ofList fields.caller, offset,
               globalHits, localHits }) := by
  rw [ofChars, splitAll_eq_toList_iff.mpr cut, Fields.toList, ofFields,
    if_neg (by simpa using named), bind_assoc]

theorem ofChars_of_count (h : text.count '|' ≠ 4) :
    ofChars text = .error (.fieldCount (text.count '|' + 1)) := by
  have hlength := Text.length_splitAll '|' text
  unfold ofChars ofFields
  split
  · rename_i hsplit
    rw [hsplit] at hlength
    exact absurd (Nat.succ.inj hlength).symm h
  · rw [hlength]

theorem ofChars_of_outcome {result : Except Error PlanPoint} (h : Outcome text result) :
    ofChars text = result := by
  cases h with
  | fieldCount h => exact ofChars_of_count h
  | emptyCallee cut h =>
      rw [ofChars, splitAll_eq_toList_iff.mpr cut, Fields.toList, ofFields,
        if_pos (by simpa using h)]
  | offset cut named h =>
      rw [ofChars_eq cut named, number_eq_error h]
      rfl
  | offsetRange cut named value_eq h =>
      rw [ofChars_eq cut named, number_eq_ok_iff.mpr value_eq, ok_bind, offsetOf_eq_error h]
      rfl
  | globalHits cut named offset_eq h =>
      rw [ofChars_eq cut named, offset_eq_ok offset_eq, ok_bind, number_eq_error h]
      rfl
  | localHits cut named offset_eq globalHits_eq h =>
      rw [ofChars_eq cut named, offset_eq_ok offset_eq, ok_bind,
        number_eq_ok_iff.mpr globalHits_eq, ok_bind, number_eq_error h]
      rfl
  | point cut named offset_eq globalHits_eq localHits_eq =>
      rw [ofChars_eq cut named, offset_eq_ok offset_eq, ok_bind,
        number_eq_ok_iff.mpr globalHits_eq, ok_bind, number_eq_ok_iff.mpr localHits_eq, ok_bind]
      rfl

-- Every text has an outcome: it fails one of the checks, or it passes them all.
theorem exists_outcome (text : List Char) : ∃ result, Outcome text result := by
  by_cases hcount : text.count '|' = 4
  case neg => exact ⟨_, .fieldCount hcount⟩
  obtain ⟨fields, cut⟩ := count_eq_four_iff.mp hcount
  by_cases named : fields.callee = []
  case pos => exact ⟨_, .emptyCallee cut named⟩
  by_cases hoffset : ∃ n : Int64, Text.HoldsNumber fields.offset n.toInt
  case neg => exact ⟨_, .offset cut named (not_exists.mp hoffset)⟩
  obtain ⟨value, value_eq⟩ := hoffset
  by_cases hrange : ∃ offset : Int32, offset.toInt = value.toInt
  case neg => exact ⟨_, .offsetRange cut named value_eq (not_exists.mp hrange)⟩
  obtain ⟨offset, hfits⟩ := hrange
  have offset_eq := hfits ▸ value_eq
  by_cases hglobal : ∃ n : Int64, Text.HoldsNumber fields.globalHits n.toInt
  case neg => exact ⟨_, .globalHits cut named offset_eq (not_exists.mp hglobal)⟩
  obtain ⟨globalHits, globalHits_eq⟩ := hglobal
  by_cases hlocal : ∃ n : Int64, Text.HoldsNumber fields.localHits n.toInt
  case neg => exact ⟨_, .localHits cut named offset_eq globalHits_eq (not_exists.mp hlocal)⟩
  obtain ⟨localHits, localHits_eq⟩ := hlocal
  exact ⟨_, .point cut named offset_eq globalHits_eq localHits_eq⟩

theorem ofChars_eq_iff {result : Except Error PlanPoint} :
    ofChars text = result ↔ Outcome text result := by
  constructor
  · rintro rfl
    obtain ⟨result, h⟩ := exists_outcome text
    rwa [ofChars_of_outcome h]
  · exact ofChars_of_outcome

end

-- What stands behind the two names.
def numbers (point : PlanPoint) : List Char :=
  Text.integer point.offset.toInt ++ '|' ::
    (Text.integer point.globalHits.toInt ++ '|' :: Text.integer point.localHits.toInt)

theorem toList_text (point : PlanPoint) :
    point.text.toList =
      point.callee.toList ++ '|' :: (point.caller.toList ++ '|' :: point.numbers) := by
  simp [text, location, locationKey, numbers, Text.ofInt]

-- The fields of the text of a point.
def fields (point : PlanPoint) : Fields where
  callee := point.callee.toList
  caller := point.caller.toList
  offset := Text.integer point.offset.toInt
  globalHits := Text.integer point.globalHits.toInt
  localHits := Text.integer point.localHits.toInt

theorem cut_fields {point : PlanPoint} (hcallee : '|' ∉ point.callee.toList)
    (hcaller : '|' ∉ point.caller.toList) : point.fields.Cut point.text.toList := by
  have hnumber : ∀ n : Int, '|' ∉ Text.integer n := fun n hm =>
    Text.forall_mem_integer (P := (· ≠ '|')) (by decide) (by decide) '|' hm rfl
  refine ⟨?_, ?_⟩
  · rw [toList_text, numbers]
    simp [fields, Fields.toList, Text.joinWith]
  · simp [fields, Fields.toList, hcallee, hcaller, hnumber]

-- A point that names a callee is read back from its text, if no bar is in its names.
theorem ofChars_text {point : PlanPoint} (named : point.callee ≠ "")
    (hcallee : '|' ∉ point.callee.toList) (hcaller : '|' ∉ point.caller.toList) :
    ofChars point.text.toList = .ok point := by
  have houtcome := Outcome.point (cut_fields hcallee hcaller) (by simpa [fields] using named)
    (Text.holdsNumber_integer _) (Text.holdsNumber_integer _) (Text.holdsNumber_integer _)
  rw [ofChars_of_outcome houtcome]
  simp [fields]

-- A point that is read has its names in front, as they stand in the text.
theorem ofChars_names {text : List Char} {point : PlanPoint} (h : ofChars text = .ok point) :
    point.callee ≠ "" ∧ '|' ∉ point.callee.toList ∧ '|' ∉ point.caller.toList ∧
      ∃ rest, text = point.callee.toList ++ '|' :: (point.caller.toList ++ '|' :: rest) := by
  cases ofChars_eq_iff.mp h with
  | @point fields cut named =>
      have hplain := cut.plain
      simp only [Fields.toList, List.forall_mem_cons] at hplain
      refine ⟨by simpa using named, by simpa using hplain.1, by simpa using hplain.2.1,
        Text.joinWith ['|'] [fields.offset, fields.globalHits, fields.localHits], ?_⟩
      rw [cut.joined]
      simp [Fields.toList, Text.joinWith]

-- A text is read as a point exactly if it describes one, and is refused for the first thing that
-- is wrong with it. A point that was read is read again from its own text.
theorem parse_outcome :
    (∀ text result, parse text = result ↔ Outcome text.toList result) ∧
      ∀ text point, parse text = .ok point → parse point.text = .ok point := by
  refine ⟨fun text result => ofChars_eq_iff, fun text point h => ?_⟩
  obtain ⟨named, hcallee, hcaller, -⟩ := ofChars_names h
  exact ofChars_text named hcallee hcaller

-- Blanks are dropped around numbers and kept in names. Of the three things that are wrong with the
-- second text the range of the offset comes first.
theorem parse_outcome_of_padded :
    ∃ point, parse " List||\t+007\u2003|-3 |9223372036854775807" = .ok point ∧
      point.text = " List||7|-3|9223372036854775807" ∧ parse point.text = .ok point ∧
      Outcome "List|Main|2147483648|-|9223372036854775808".toList
        (.error (.offsetRange 2147483648)) := by
  obtain ⟨houtcome, hagain⟩ := parse_outcome
  let point : PlanPoint :=
    { callee := " List", caller := "", offset := 7, globalHits := -3,
      localHits := 9223372036854775807 }
  have hread : parse " List||\t+007\u2003|-3 |9223372036854775807" = .ok point := by
    decide +kernel
  refine ⟨point, hread, by decide +kernel, hagain _ point hread, (houtcome _ _).mp ?_⟩
  decide +kernel

end PlanPoint

end DelayInjection
