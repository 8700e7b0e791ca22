import Mathlib.Data.List.Basic
import Mathlib.Data.Nat.Digits.Defs
import DelayInjection.Proofs.Text.Cuts

-- Which texts are read as whole numbers: an optional sign and one or more digits, with blanks
-- around them in a field. The value of digits is that of the decimal system.

namespace DelayInjection.Text

-- Digits that may stand alone or behind a sign.
def IsDigits (digits : List Char) : Prop :=
  digits ≠ [] ∧ ∀ c ∈ digits, '0' ≤ c ∧ c ≤ '9'

def valueOf (digits : List Char) : Nat :=
  Nat.ofDigits 10 (digits.reverse.map fun c => c.toNat - '0'.toNat)

-- The number that a text stands for.
inductive Denotes : List Char → Int → Prop
  | plain {digits : List Char} (h : IsDigits digits) : Denotes digits (valueOf digits)
  | plus {digits : List Char} (h : IsDigits digits) : Denotes ('+' :: digits) (valueOf digits)
  | minus {digits : List Char} (h : IsDigits digits) : Denotes ('-' :: digits) (-valueOf digits)

-- A number among blanks.
def HoldsNumber (field : List Char) (n : Int) : Prop :=
  ∃ front numeral back, field = front ++ (numeral ++ back) ∧
    (∀ c ∈ front ++ back, isBlank c = true) ∧ Denotes numeral n

section

variable {digits text : List Char} {n : Int}

theorem valueOf_cons (c : Char) (rest : List Char) :
    valueOf (c :: rest) = valueOf rest + 10 ^ rest.length * (c.toNat - '0'.toNat) := by
  simp [valueOf, Nat.ofDigits_append]

-- Digits behind others are added to ten times the value of these, once for each of them.
theorem readDigits_eq_some_iff {value m : Nat} :
    readDigits value digits = some m ↔
      (∀ c ∈ digits, '0' ≤ c ∧ c ≤ '9') ∧ m = 10 ^ digits.length * value + valueOf digits := by
  induction digits generalizing value with
  | nil => simp [readDigits, valueOf, eq_comm]
  | cons c rest ih =>
      rw [readDigits, List.forall_mem_cons]
      by_cases hc : '0' ≤ c ∧ c ≤ '9'
      · have hvalue : 10 ^ rest.length * (10 * value + (c.toNat - 48)) + valueOf rest =
            10 ^ (c :: rest).length * value + valueOf (c :: rest) := by
          rw [valueOf_cons, List.length_cons, pow_succ, show '0'.toNat = 48 from rfl]
          ring
        rw [digitValue?, if_pos hc]
        simp only [ih, hvalue, hc, true_and, and_self]
      · simp [digitValue?, hc]

theorem natural?_eq_some_iff {m : Nat} :
    natural? digits = some m ↔ IsDigits digits ∧ m = valueOf digits := by
  unfold natural? IsDigits
  cases digits with
  | nil => simp
  | cons c rest => simp [readDigits_eq_some_iff]

theorem natural?_of_isDigits (h : IsDigits digits) : natural? digits = some (valueOf digits) :=
  natural?_eq_some_iff.mpr ⟨h, rfl⟩

theorem integer?_eq_some_iff : integer? text = some n ↔ Denotes text n := by
  constructor
  · intro hread
    unfold integer? at hread
    split at hread
    all_goals
      obtain ⟨m, hm, rfl⟩ := Option.map_eq_some_iff.mp hread
      obtain ⟨hdigits, rfl⟩ := natural?_eq_some_iff.mp hm
    · exact .plus hdigits
    · exact .minus hdigits
    · exact .plain hdigits
  · intro hdenotes
    cases hdenotes with
    | plus h => simp [integer?, natural?_of_isDigits h]
    | minus h => simp [integer?, natural?_of_isDigits h]
    | plain h =>
        -- no sign is a digit
        unfold integer?
        split
        · exact absurd (h.2 '+' List.mem_cons_self) (by decide)
        · exact absurd (h.2 '-' List.mem_cons_self) (by decide)
        · simp [natural?_of_isDigits h]

theorem Denotes.ne_nil (h : Denotes text n) : text ≠ [] := by
  cases h with
  | plain h => exact h.1
  | plus h => exact List.cons_ne_nil _ _
  | minus h => exact List.cons_ne_nil _ _

-- Nothing that stands for a number is blank.
theorem Denotes.isBlank_of_mem (h : Denotes text n) : ∀ c ∈ text, isBlank c = false := by
  have hdigits : ∀ digits, IsDigits digits → ∀ c ∈ digits, isBlank c = false := by
    intro digits hdigits c hc
    obtain ⟨hlow, hhigh⟩ := hdigits.2 c hc
    have hlow : 48 ≤ c.toNat := hlow
    have hhigh : c.toNat ≤ 57 := hhigh
    simp only [isBlank, Bool.or_eq_false_iff, Bool.and_eq_false_iff, decide_eq_false_iff_not,
      beq_eq_false_iff_ne]
    omega
  cases h with
  | plain h => exact hdigits _ h
  | plus h => exact List.forall_mem_cons.mpr ⟨by decide, hdigits _ h⟩
  | minus h => exact List.forall_mem_cons.mpr ⟨by decide, hdigits _ h⟩

theorem trimEnd_append_of_blanks {back : List Char} (h : ∀ c ∈ back, isBlank c = true)
    (text : List Char) : trimEnd (text ++ back) = trimEnd text := by
  have hreversed : ∀ c ∈ back.reverse, isBlank c = true := fun c hc => h c (List.mem_reverse.mp hc)
  rw [trimEnd, List.reverse_append, ← trimStart, trimStart_append_of_blanks hreversed, trimEnd,
    trimStart]

-- What is cut off at the ends is blank.
theorem exists_append_trim (text : List Char) : ∃ front back,
    text = front ++ (trim text ++ back) ∧ ∀ c ∈ front ++ back, isBlank c = true := by
  refine ⟨text.takeWhile isBlank, ((trimStart text).reverse.takeWhile isBlank).reverse, ?_, ?_⟩
  · rw [trim, trimEnd, ← List.reverse_append, List.takeWhile_append_dropWhile,
      List.reverse_reverse, trimStart, List.takeWhile_append_dropWhile]
  · intro c hc
    rcases List.mem_append.mp hc with hc | hc
    · exact List.mem_takeWhile_imp hc
    · exact List.mem_takeWhile_imp (List.mem_reverse.mp hc)

-- A field is read as the number that it holds.
theorem integer?_trim_eq_some_iff {field : List Char} :
    integer? (trim field) = some n ↔ HoldsNumber field n := by
  rw [integer?_eq_some_iff]
  constructor
  · intro h
    obtain ⟨front, back, hfield, hblanks⟩ := exists_append_trim field
    exact ⟨front, trim field, back, hfield, hblanks, h⟩
  · rintro ⟨front, numeral, back, rfl, hblanks, hnumeral⟩
    rw [List.forall_mem_append] at hblanks
    have hclean := hnumeral.isBlank_of_mem
    have hstart : trimStart (numeral ++ back) = numeral ++ back := by
      apply trimStart_eq_self
      rw [List.head?_append_of_ne_nil _ hnumeral.ne_nil]
      exact fun c hc => hclean c (List.mem_of_mem_head? hc)
    rw [trim, trimStart_append_of_blanks hblanks.1, hstart, trimEnd_append_of_blanks hblanks.2,
      trimEnd_eq_self fun c hc => hclean c (List.mem_of_mem_getLast? hc)]
    exact hnumeral

theorem holdsNumber_integer (n : Int) : HoldsNumber (integer n) n := by
  rw [← integer?_trim_eq_some_iff, trim_integer, integer?_integer]

theorem int64?_eq_some_iff {m : Int64} : int64? n = some m ↔ m.toInt = n := by
  constructor
  · intro h
    unfold int64? at h
    split at h
    · rename_i hrange
      rw [← Option.some.inj h]
      exact Int64.toInt_ofInt_of_le hrange.1 (Int.lt_add_one_of_le hrange.2)
    · cases h
  · rintro rfl
    exact int64?_toInt m

theorem int32?_eq_some_iff {m : Int32} : int32? n = some m ↔ m.toInt = n := by
  constructor
  · intro h
    unfold int32? at h
    split at h
    · rename_i hrange
      rw [← Option.some.inj h]
      exact Int32.toInt_ofInt_of_le hrange.1 (Int.lt_add_one_of_le hrange.2)
    · cases h
  · rintro rfl
    exact int32?_toInt m

end

end DelayInjection.Text
