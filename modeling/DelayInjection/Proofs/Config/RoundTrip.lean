import Mathlib.Data.List.Basic
import DelayInjection.Config.Document
import DelayInjection.Proofs.Text.Cuts

-- Configurations that were written as documents and are read again. Every field that a writer
-- leaves out has to be the one that the reader fills in; for the log files of the learned
-- parameters it is not.

namespace DelayInjection

namespace Datum

theorem lookup_optional {α : Type} (name other : String) (write : α → Datum) (value : Option α) :
    (optional name write value).lookup other =
      if other == name then value.map write else none := by
  cases value with
  | none => simp [optional]
  | some value => cases h : other == name <;> simp [optional, List.lookup_cons, h]

theorem lookup_unless (empty : Prop) [Decidable empty] (name other : String) (datum : Datum) :
    (if empty then [] else [(name, datum)]).lookup other =
      if other == name then (if empty then none else some datum) else none := by
  by_cases hempty : empty <;> cases h : other == name <;> simp [List.lookup_cons, h, hempty]

end Datum

namespace Decode

theorem ok_bind {ε α β : Type} (value : α) (next : α → Except ε β) :
    (Except.ok value >>= next) = next value := by
  simp only [bind, Except.bind]

theorem word_natDatum (n : UInt64) : word (natDatum n) = .ok n := by
  rw [word, natDatum, integerIn, Text.word64?_toNat]

theorem integer_intDatum (n : Int64) : integer (intDatum n) = .ok n := by
  rw [integer, intDatum, integerIn, Text.int64?_toInt]

theorem offset_toInt (what : String) (n : Int32) :
    integerIn what Text.int32? (.integer n.toInt) = .ok n := by
  rw [integerIn, Text.int32?_toInt]

theorem listOf_map {α : Type} {write : α → Datum} {decode : Decoder α} {result : α → α}
    (h : ∀ item, decode (write item) = .ok (result item)) (items : List α) :
    listOf decode (.list (items.map write)) = .ok (items.map result) := by
  rw [listOf]
  induction items with
  | nil => rfl
  | cons item rest ih =>
      rw [List.map_cons, List.mapM_cons, h, ih]
      rfl

theorem listOf_texts (texts : List String) : listOf text (.ofTexts texts) = .ok texts := by
  have hread : ∀ item, text (.text item) = .ok (id item) := fun _ => rfl
  exact (listOf_map hread texts).trans (by rw [List.map_id])

theorem optional_of_ne_null {α : Type} {decode : Decoder α} {datum : Datum}
    (h : datum ≠ .null) : optional decode datum = (decode datum).map some := by
  unfold optional
  split
  · exact absurd rfl h
  · rfl

namespace Fields

variable {α : Type} (members : List (String × Datum)) (place : Nat) (name : String)
  (decode : Decoder α)

theorem get_named (default : α) : (named members).get place name decode default =
    (members.lookup name).elim (.ok default) decode := by
  rw [get, find?]
  cases members.lookup name <;> rfl

theorem required_named : (named members).required place name decode =
    (members.lookup name).elim (.error (.missing name)) decode := by
  rw [required, find?]
  cases members.lookup name <;> rfl

end Fields

-- What the fields of a record are read as. The readers stay folded: unfolded, they would compare
-- unknown numbers with the bounds of their type.
section

variable {α β : Type}

-- A field that is always written.
theorem elim_written {datum : Datum} {decode : Decoder α} {value : α}
    (h : decode datum = .ok value) (absent : Except DecodeError α) :
    (some datum).elim absent decode = .ok value := h

theorem elim_text (value : String) (absent : Except DecodeError String) :
    (some (.text value)).elim absent text = .ok value := elim_written (by rw [text]) absent

theorem elim_boolean (value : Bool) (absent : Except DecodeError Bool) :
    (some (.bool value)).elim absent boolean = .ok value := elim_written (by rw [boolean]) absent

theorem elim_float (value : Float) (absent : Except DecodeError Float) :
    (some (.float value)).elim absent float = .ok value := elim_written (by rw [float]) absent

-- A field that is written only when it holds something.
theorem elim_optional {write : α → Datum} {decode : Decoder β} {result : α → β}
    (hnull : ∀ value, write value ≠ .null)
    (hread : ∀ value, decode (write value) = .ok (result value)) (value : Option α)
    (default : Option β) :
    value.elim (.ok default) (optional decode ∘ write) = .ok ((value.map result).or default) := by
  cases value with
  | none => rfl
  | some value =>
      rw [Option.elim_some, Function.comp_apply, optional_of_ne_null (hnull value), hread]
      rfl

theorem elim_optional_text (value default : Option String) :
    value.elim (.ok default) (optional text ∘ .text) = .ok (value.or default) := by
  cases value <;> rfl

theorem elim_optional_word (value default : Option UInt64) :
    value.elim (.ok default) (optional word ∘ natDatum) = .ok (value.or default) := by
  rw [elim_optional nofun word_natDatum, Option.map_id']

-- A list that is written only when it has an item.
theorem elim_items {write : α → Datum} {decode : Decoder α} {result : α → α}
    (h : ∀ item, decode (write item) = .ok (result item)) (items : List α)
    [Decidable (items = [])] :
    (if items = [] then none else some (.list (items.map write))).elim (.ok [])
      (listOf decode) = .ok (items.map result) := by
  split
  · rename_i hempty
    rw [hempty]
    rfl
  · exact listOf_map h items

end

end Decode

namespace HitCount

theorem decode_toDatum (dialect : Dialect) (record : HitCount) :
    decode dialect record.toDatum = .ok record := by
  rw [decode, toDatum, Decode.fields]
  simp [Decode.ok_bind, Decode.Fields.get_named, List.lookup_cons, -Option.elim_some,
    Decode.elim_written (Decode.integer_intDatum _), pure, Except.pure]

end HitCount

namespace Group

theorem decode_toDatum (dialect : Dialect) (group : Group) :
    decode dialect group.toDatum = .ok group := by
  rw [decode, toDatum, Decode.fields]
  simp [Decode.ok_bind, Decode.Fields.get_named, Decode.Fields.required_named,
    List.lookup_cons, Decode.elim_text, Decode.elim_boolean, -Option.elim_some,
    Decode.elim_written (Decode.listOf_texts _), pure, Except.pure]

end Group

namespace TrapPlan

-- A plan before its first injection, which is not written.
def uncounted (plan : TrapPlan) : TrapPlan := { plan with injections := 0 }

theorem decode_toDatum (dialect : Dialect) (plan : TrapPlan) :
    decode dialect plan.toDatum = .ok plan.uncounted := by
  rw [decode, toDatum, Decode.fields]
  simp [Decode.ok_bind, Decode.Fields.get_named, Decode.Fields.required_named,
    List.lookup_append, List.lookup_cons, Datum.lookup_optional, Datum.lookup_unless,
    -Option.elim_some, Decode.elim_text, Decode.elim_boolean, Decode.elim_float,
    Decode.elim_written (Decode.offset_toInt _ _), Decode.elim_optional_text,
    Decode.elim_optional_word, Decode.elim_items (HitCount.decode_toDatum dialect),
    uncounted, pure, Except.pure]

end TrapPlan

namespace RandomizedParams

theorem decode_toDatum (dialect : Dialect) (params : RandomizedParams) :
    decode dialect params.toDatum = .ok params := by
  rw [decode, toDatum, Decode.fields]
  simp [Decode.ok_bind, Decode.Fields.get_named, List.lookup_cons, Datum.lookup_optional,
    -Option.elim_some, Decode.elim_float, Decode.elim_written (Decode.word_natDatum _),
    Decode.elim_optional_word, pure, Except.pure]

theorem toDatum_ne_null (params : RandomizedParams) : params.toDatum ≠ .null := nofun

end RandomizedParams

namespace LearnedParams

def uncounted (params : LearnedParams) : LearnedParams :=
  { params with plans := params.plans.map (·.uncounted) }

-- The log files that are missing have their standard names.
def refilled (params : LearnedParams) : LearnedParams :=
  { params with
    lastRunPlanFile := params.lastRunPlanFile.or ({} : LearnedParams).lastRunPlanFile
    lastRunBugFile := params.lastRunBugFile.or ({} : LearnedParams).lastRunBugFile }

theorem decode_toDatum (dialect : Dialect) (params : LearnedParams) :
    decode dialect params.toDatum = .ok params.uncounted.refilled := by
  rw [decode, toDatum, Decode.fields]
  simp [refilled, uncounted, Decode.ok_bind, Decode.Fields.get_named, List.lookup_append,
    List.lookup_cons, Datum.lookup_optional, Datum.lookup_unless, -Option.elim_some,
    Decode.elim_boolean, Decode.elim_float, Decode.elim_written (Decode.word_natDatum _),
    Decode.elim_written (Decode.integer_intDatum _), Decode.elim_written (Decode.listOf_texts _),
    Decode.elim_optional_text, Decode.elim_optional_word,
    Decode.elim_items (TrapPlan.decode_toDatum dialect), pure, Except.pure]

theorem toDatum_ne_null (params : LearnedParams) : params.toDatum ≠ .null := nofun

theorem refilled_eq_self_iff (params : LearnedParams) :
    params.refilled = params ↔
      params.lastRunPlanFile.isSome ∧ params.lastRunBugFile.isSome := by
  constructor
  · intro h
    rw [← h]
    simp [refilled]
  · rintro ⟨hplan, hbug⟩
    obtain ⟨plan, hplan⟩ := Option.isSome_iff_exists.mp hplan
    obtain ⟨bug, hbug⟩ := Option.isSome_iff_exists.mp hbug
    rw [refilled, hplan, hbug, Option.some_or, Option.some_or, ← hplan, ← hbug]

end LearnedParams

namespace RuntimeConfig

-- A configuration none of whose plans has injected a delay.
def uncounted (config : RuntimeConfig) : RuntimeConfig :=
  { config with learned := config.learned.map (·.uncounted) }

def refilled (config : RuntimeConfig) : RuntimeConfig :=
  { config with learned := config.learned.map (·.refilled) }

theorem decode_toDatum (dialect : Dialect) (config : RuntimeConfig) :
    decode dialect config.toDatum = .ok config.uncounted.refilled := by
  have halgorithm : Decode.choice dialect Algorithm.names (.text config.algorithm.name) =
      .ok config.algorithm := by
    cases config.algorithm <;> rfl
  have hformat : Decode.choice dialect ReportFormat.names (.text config.reportFormat.name) =
      .ok config.reportFormat := by
    cases config.reportFormat <;> rfl
  have hgroups := Decode.listOf_map (Group.decode_toDatum dialect) config.groups
  have hrandomized := Decode.elim_optional RandomizedParams.toDatum_ne_null
    (RandomizedParams.decode_toDatum dialect) config.randomized none
  have hlearned := Decode.elim_optional LearnedParams.toDatum_ne_null
    (LearnedParams.decode_toDatum dialect) config.learned none
  rw [decode, toDatum, Decode.fields]
  simp [refilled, uncounted, Decode.ok_bind, Decode.Fields.get_named, List.lookup_append,
    List.lookup_cons, Datum.lookup_optional, -Option.elim_some, Decode.elim_boolean,
    Decode.elim_written halgorithm,
    Decode.elim_written hformat, Decode.elim_written hgroups, Decode.elim_optional_text,
    hrandomized, hlearned, pure, Except.pure]
  rfl

theorem refilled_eq_self_iff (config : RuntimeConfig) :
    config.refilled = config ↔ ∀ params ∈ config.learned,
      params.lastRunPlanFile.isSome ∧ params.lastRunBugFile.isSome := by
  constructor
  · intro h params hm
    have hlearned : config.learned.map (·.refilled) = config.learned := congrArg (·.learned) h
    rw [Option.mem_def.mp hm, Option.map_some, Option.some.injEq] at hlearned
    exact params.refilled_eq_self_iff.mp hlearned
  · intro h
    have hlearned : config.learned.map (·.refilled) = config.learned := by
      cases hparams : config.learned with
      | none => rfl
      | some params => rw [Option.map_some, params.refilled_eq_self_iff.mpr (h params hparams)]
    rw [refilled, hlearned]

-- A configuration is read as it was written, but for the injections of its plans, which are not
-- written, and the log files that were missing; so it is read unchanged exactly if none was.
theorem round_trip (dialect : Dialect) (config : RuntimeConfig) :
    decode dialect config.toDatum = .ok config.uncounted.refilled ∧
      (decode dialect config.toDatum = .ok config.uncounted ↔
        ∀ params ∈ config.learned,
          params.lastRunPlanFile.isSome ∧ params.lastRunBugFile.isSome) := by
  refine ⟨decode_toDatum dialect config, ?_⟩
  rw [decode_toDatum, Except.ok.injEq, refilled_eq_self_iff, uncounted]
  cases config.learned with
  | none => exact iff_of_true nofun nofun
  | some params => simp [LearnedParams.uncounted]

-- Parameters that leave the disk alone are read as ones that use it.
theorem round_trip_touches_disk :
    ¬ ∀ config : RuntimeConfig, decode .json config.toDatum = .ok config.uncounted := by
  intro hclaim
  have hread := hclaim (ofLearned .inMemory)
  rw [decode_toDatum, Except.ok.injEq] at hread
  have hplan := congrArg (fun config => config.learned.map (·.lastRunPlanFile)) hread
  revert hplan
  decide

end RuntimeConfig

end DelayInjection
