import Mathlib.Data.List.Basic
import Mathlib.Data.List.TakeWhile
import DelayInjection.Text.Blank
import DelayInjection.Text.Fields
import DelayInjection.Text.Numeral

-- Texts cut at separators and freed from blanks: what the pieces look like, and which texts give
-- the same pieces again. Numerals hold neither blanks nor separators.

namespace DelayInjection.Text

section

variable {separator : Char} {piece text : List Char}

theorem splitAll_of_not_mem (h : separator ∉ text) : splitAll separator text = [text] := by
  induction text with
  | nil => rfl
  | cons c rest ih =>
      rw [List.mem_cons, not_or] at h
      obtain ⟨hc, hrest⟩ := h
      rw [splitAll, if_neg (Ne.symm hc), ih hrest]

theorem splitAll_append (separator : Char) (front back : List Char) :
    splitAll separator (front ++ separator :: back) =
      splitAll separator front ++ splitAll separator back := by
  induction front with
  | nil => simp [splitAll]
  | cons c rest ih =>
      rw [List.cons_append, splitAll, splitAll, ih]
      split
      · rfl
      · cases hrest : splitAll separator rest with
        | nil => exact absurd hrest (splitAll_ne_nil separator rest)
        | cons piece pieces => rfl

theorem splitAll_append_cons (h : separator ∉ piece) :
    splitAll separator (piece ++ separator :: text) = piece :: splitAll separator text := by
  rw [splitAll_append, splitAll_of_not_mem h, List.singleton_append]

theorem not_mem_of_mem_splitAll (h : piece ∈ splitAll separator text) : separator ∉ piece := by
  induction text generalizing piece with
  | nil =>
      rw [splitAll, List.mem_singleton] at h
      simp [h]
  | cons c rest ih =>
      rw [splitAll] at h
      split at h
      · rcases List.mem_cons.mp h with rfl | hm
        · exact List.not_mem_nil
        · exact ih hm
      · rename_i hc
        cases hrest : splitAll separator rest with
        | nil => exact absurd hrest (splitAll_ne_nil separator rest)
        | cons first others =>
            rw [hrest] at h ih
            rcases List.mem_cons.mp h with rfl | hm
            · rw [List.mem_cons, not_or]
              exact ⟨Ne.symm hc, ih List.mem_cons_self⟩
            · exact ih (List.mem_cons_of_mem _ hm)

theorem length_splitAll (separator : Char) (text : List Char) :
    (splitAll separator text).length = text.count separator + 1 := by
  induction text with
  | nil => rfl
  | cons c rest ih =>
      rw [splitAll]
      by_cases hc : c = separator
      · rw [if_pos hc, List.length_cons, ih, hc, List.count_cons_self]
      · rw [if_neg hc, List.count_cons_of_ne hc, ← ih]
        cases hrest : splitAll separator rest with
        | nil => exact absurd hrest (splitAll_ne_nil separator rest)
        | cons first others => rfl

-- Pieces without the separator are found again where they were joined.
theorem splitAll_joinWith {pieces : List (List Char)} (hne : pieces ≠ [])
    (h : ∀ piece ∈ pieces, separator ∉ piece) :
    splitAll separator (joinWith [separator] pieces) = pieces := by
  induction pieces with
  | nil => exact absurd rfl hne
  | cons piece rest ih =>
      obtain ⟨hpiece, hrest⟩ := List.forall_mem_cons.mp h
      cases rest with
      | nil => exact splitAll_of_not_mem hpiece
      | cons next others =>
          rw [joinWith, List.append_assoc, List.singleton_append, splitAll_append_cons hpiece,
            ih (List.cons_ne_nil next others) hrest]
          exact List.cons_ne_nil next others

theorem joinWith_append {separator : List Char} {front back : List (List Char)}
    (hfront : front ≠ []) (hback : back ≠ []) :
    joinWith separator (front ++ back) =
      joinWith separator front ++ (separator ++ joinWith separator back) := by
  induction front with
  | nil => exact absurd rfl hfront
  | cons piece rest ih =>
      cases rest with
      | nil =>
          obtain ⟨next, others, rfl⟩ := List.exists_cons_of_ne_nil hback
          simp [joinWith]
      | cons next others =>
          have hrest := ih (List.cons_ne_nil next others)
          simp only [List.cons_append, joinWith] at hrest ⊢
          rw [hrest]
          simp

theorem joinWith_concat (separator last : List Char) {pieces : List (List Char)}
    (h : pieces ≠ []) :
    joinWith separator (pieces ++ [last]) =
      joinWith separator pieces ++ (separator ++ last) :=
  joinWith_append h (List.cons_ne_nil last [])

-- Character by character, a joined text is written as its pieces and separators are.
theorem flatMap_joinWith (write : Char → List Char) (separator : List Char)
    (pieces : List (List Char)) :
    (joinWith separator pieces).flatMap write =
      joinWith (separator.flatMap write) (pieces.map (·.flatMap write)) := by
  induction pieces with
  | nil => rfl
  | cons piece rest ih =>
      cases rest with
      | nil => rfl
      | cons next others =>
          simp only [List.map_cons, joinWith] at ih ⊢
          rw [List.flatMap_append, List.flatMap_append, ih]

end

section

variable {separator front back text : List Char}

-- A text without a character of its own cannot reach across that character.
theorem infix_append_cons_iff {c : Char} (h : c ∉ text) :
    text <:+: front ++ c :: back ↔ text <:+: front ∨ text <:+: back := by
  constructor
  · intro hin
    rcases List.infix_append_iff.mp hin with hin | hin | ⟨left, right, rfl, hleft, hright⟩
    · exact .inl hin
    · rcases List.infix_cons_iff.mp hin with hin | hin
      · rcases List.prefix_cons_iff.mp hin with rfl | ⟨rest, rfl, -⟩
        · exact .inl List.nil_infix
        · exact absurd List.mem_cons_self h
      · exact .inr hin
    · -- what lies behind the front is a prefix that would begin with the character
      rcases List.prefix_cons_iff.mp hright with rfl | ⟨rest, rfl, -⟩
      · rw [List.append_nil]
        exact .inl hleft.isInfix
      · exact absurd (List.mem_append_right left List.mem_cons_self) h
  · rintro (hin | hin)
    · exact hin.trans (List.prefix_append _ _).isInfix
    · exact hin.trans ((List.suffix_cons c back).trans (List.suffix_append front _)).isInfix

-- A text is cut at the last occurrence of a character in one way only.
theorem append_cons_inj_of_not_mem {c : Char} {front' back' : List Char} (h : c ∉ back)
    (h' : c ∉ back') (he : front ++ c :: back = front' ++ c :: back') :
    front = front' ∧ back = back' := by
  rcases List.append_eq_append_iff.mp he with ⟨between, rfl, hback⟩ | ⟨between, rfl, hback⟩
  · cases between with
    | nil => exact ⟨by simp, (List.cons.inj hback).2⟩
    | cons d others =>
        obtain ⟨-, rfl⟩ := List.cons.inj hback
        exact absurd (by simp) h
  · cases between with
    | nil => exact ⟨by simp, (List.cons.inj hback).2.symm⟩
    | cons d others =>
        obtain ⟨-, rfl⟩ := List.cons.inj hback
        exact absurd (by simp) h'

-- Where a text is cut in two ways at the same character, it is the number of its occurrences
-- before the cut that tells the ways apart.
theorem front_eq_iff_count_eq {c : Char} {front' back' : List Char}
    (h : front ++ c :: back = front' ++ c :: back') :
    front = front' ↔ front.count c = front'.count c := by
  -- the longer front goes on with the character itself
  have hlonger : ∀ {short long rest rest' : List Char} (between : List Char),
      long = short ++ between → c :: rest = between ++ c :: rest' →
        short.count c = long.count c → short = long := by
    intro short long rest rest' between hlong hrest hcount
    cases between with
    | nil => rw [hlong, List.append_nil]
    | cons d others =>
        obtain ⟨rfl, -⟩ := List.cons.inj hrest
        rw [hlong, List.count_append, List.count_cons_self] at hcount
        omega
  refine ⟨fun he => he ▸ rfl, fun hcount => ?_⟩
  rcases List.append_eq_append_iff.mp h with ⟨between, hlong, hrest⟩ | ⟨between, hlong, hrest⟩
  · exact hlonger between hlong hrest hcount
  · exact (hlonger between hlong hrest hcount.symm).symm

-- The first occurrence of the separator is the one that was put there, if none begins before it.
theorem splitOnce_append (hne : separator ≠ [])
    (h : ¬ separator <:+: front ++ separator.dropLast) :
    splitOnce separator (front ++ (separator ++ back)) = some (front, back) := by
  induction front with
  | nil =>
      obtain ⟨c, rest, rfl⟩ := List.exists_cons_of_ne_nil hne
      rw [List.nil_append, List.cons_append, splitOnce, if_pos]
      · rw [← List.cons_append, List.drop_left]
      · rw [← List.cons_append]
        exact List.isPrefixOf_iff_prefix.mpr (List.prefix_append _ _)
  | cons c rest ih =>
      rw [List.cons_append, List.infix_cons_iff, not_or] at h
      rw [List.cons_append, splitOnce, if_neg, ih h.2]
      · rfl
      · -- an occurrence here would end before the separator does
        intro hprefix
        refine h.1 (List.prefix_of_prefix_length_le (List.isPrefixOf_iff_prefix.mp hprefix) ?_ ?_)
        · rw [List.cons_prefix_cons]
          exact ⟨rfl, List.prefix_append_right_inj rest |>.mpr
            ((List.dropLast_prefix separator).trans (List.prefix_append _ _))⟩
        · have hpos := List.length_pos_of_ne_nil hne
          simp only [List.length_cons, List.length_append, List.length_dropLast]
          omega

theorem splitOnce_eq_some (h : splitOnce separator text = some (front, back)) :
    text = front ++ (separator ++ back) ∧ (separator ≠ [] → ¬ separator <:+: front) := by
  induction text generalizing front with
  | nil =>
      rw [splitOnce] at h
      split at h
      · rename_i hempty
        obtain rfl := List.isEmpty_iff.mp hempty
        obtain ⟨rfl, rfl⟩ := Prod.mk.inj (Option.some.inj h)
        exact ⟨rfl, fun hne => absurd rfl hne⟩
      · cases h
  | cons c rest ih =>
      rw [splitOnce] at h
      split at h
      · rename_i hprefix
        obtain ⟨behind, hbehind⟩ := List.isPrefixOf_iff_prefix.mp hprefix
        obtain ⟨rfl, rfl⟩ := Prod.mk.inj (Option.some.inj h)
        rw [← hbehind, List.drop_left, List.nil_append]
        exact ⟨rfl, fun hne hin => hne (List.infix_nil.mp hin)⟩
      · rename_i hprefix
        obtain ⟨⟨before, after⟩, hrest, he⟩ := Option.map_eq_some_iff.mp h
        obtain ⟨rfl, rfl⟩ := Prod.mk.inj he
        obtain ⟨rfl, hnone⟩ := ih hrest
        refine ⟨rfl, fun hne hin => ?_⟩
        rcases List.infix_cons_iff.mp hin with hin | hin
        · refine hprefix (List.isPrefixOf_iff_prefix.mpr (hin.trans ?_))
          rw [← List.cons_append]
          exact List.prefix_append _ _
        · exact hnone hne hin

end

section

variable {text : List Char}

theorem trimStart_eq_self (h : ∀ c ∈ text.head?, isBlank c = false) : trimStart text = text := by
  cases text with
  | nil => rfl
  | cons c rest => exact List.dropWhile_cons_of_neg (by simp [h c rfl])

theorem trimEnd_eq_self (h : ∀ c ∈ text.getLast?, isBlank c = false) : trimEnd text = text := by
  have hstart : trimStart text.reverse = text.reverse := by
    apply trimStart_eq_self
    rw [List.head?_reverse]
    exact h
  rw [trimEnd, ← trimStart, hstart, List.reverse_reverse]

theorem trim_eq_self (hhead : ∀ c ∈ text.head?, isBlank c = false)
    (hlast : ∀ c ∈ text.getLast?, isBlank c = false) : trim text = text := by
  rw [trim, trimStart_eq_self hhead, trimEnd_eq_self hlast]

theorem head?_trimStart (text : List Char) :
    ∀ c ∈ (trimStart text).head?, isBlank c = false := by
  intro c hc
  have h := List.head?_dropWhile_not isBlank text
  rw [← trimStart, hc] at h
  exact h

theorem trimEnd_isPrefix (text : List Char) : trimEnd text <+: text := by
  have h := (List.dropWhile_suffix isBlank (l := text.reverse))
  rw [trimEnd]
  exact List.reverse_suffix.mp (by simpa using h)

theorem trim_isInfix (text : List Char) : trim text <:+: text :=
  (trimEnd_isPrefix _).isInfix.trans (List.dropWhile_suffix isBlank).isInfix

-- A prefix that is not empty begins as the whole does.
theorem mem_head?_of_isPrefix {front : List Char} (h : front <+: text) {c : Char}
    (hc : c ∈ front.head?) : c ∈ text.head? := by
  obtain ⟨rest, rfl⟩ := h
  cases front with
  | nil => cases hc
  | cons first others => exact hc

theorem head?_trim (text : List Char) : ∀ c ∈ (trim text).head?, isBlank c = false := fun c hc =>
  head?_trimStart text c (mem_head?_of_isPrefix (trimEnd_isPrefix _) hc)

-- Blanks at the end do not matter to a text that begins with something else.
theorem head?_trim_eq {c : Char} (hc : c ∈ text.head?) (hb : isBlank c = false) :
    c ∈ (trim text).head? := by
  cases text with
  | nil => cases hc
  | cons first rest =>
      obtain rfl := Option.some.inj hc
      have hstart : trimStart (first :: rest) = first :: rest :=
        trimStart_eq_self (by simpa using hb)
      rw [trim, hstart]
      cases hend : trimEnd (first :: rest) with
      | nil =>
          -- then every character would be blank, the first one too
          have hnil : (first :: rest).reverse.dropWhile isBlank = [] :=
            List.reverse_eq_nil_iff.mp hend
          have hall := List.dropWhile_eq_nil_iff.mp hnil first (by simp)
          rw [hb] at hall
          cases hall
      | cons d others =>
          have hd := mem_head?_of_isPrefix (trimEnd_isPrefix (first :: rest)) (c := d)
            (by rw [hend]; rfl)
          obtain rfl := Option.some.inj hd
          rfl

end

section

variable {front : List Char}

theorem words_append_of_blanks (h : ∀ c ∈ front, isBlank c = true) (text : List Char) :
    words (front ++ text) = words text := by
  induction front with
  | nil => rfl
  | cons c rest ih =>
      obtain ⟨hc, hrest⟩ := List.forall_mem_cons.mp h
      rw [List.cons_append, words_cons_of_isBlank hc, ih hrest]

theorem trimStart_append_of_blanks (h : ∀ c ∈ front, isBlank c = true) (text : List Char) :
    trimStart (front ++ text) = trimStart text := by
  rw [trimStart, List.dropWhile_append_of_pos h, trimStart]

-- A text without words is blank, and one with words goes on behind the first of them where it is
-- blank or ends.
theorem words_cases (text : List Char) :
    (words text = [] ∧ ∀ c ∈ text, isBlank c = true) ∨
      ∃ front word back, text = front ++ (word ++ back) ∧ (∀ c ∈ front, isBlank c = true) ∧
        word ≠ [] ∧ (∀ c ∈ word, isBlank c = false) ∧ (∀ d ∈ back.head?, isBlank d = true) ∧
        words text = word :: words back := by
  have hblanks : ∀ c ∈ text.takeWhile isBlank, isBlank c = true := fun c =>
    List.mem_takeWhile_imp
  have hcut := List.takeWhile_append_dropWhile (p := isBlank) (l := text)
  cases hrest : text.dropWhile isBlank with
  | nil =>
      rw [hrest, List.append_nil] at hcut
      rw [hcut] at hblanks
      have hwords := words_append_of_blanks hblanks []
      rw [List.append_nil] at hwords
      exact .inl ⟨hwords, hblanks⟩
  | cons c rest =>
      have hc : isBlank c = false := by
        have hhead := List.head?_dropWhile_not isBlank text
        rw [hrest] at hhead
        exact hhead
      have hword : ∀ d ∈ (c :: rest).takeWhile (!isBlank ·), isBlank d = false := fun d hd => by
        simpa using List.mem_takeWhile_imp hd
      have hback : ∀ d ∈ ((c :: rest).dropWhile (!isBlank ·)).head?, isBlank d = true := by
        intro d hd
        have hhead := List.head?_dropWhile_not (!isBlank ·) (c :: rest)
        rw [hd] at hhead
        simpa using hhead
      have hne : (c :: rest).takeWhile (!isBlank ·) ≠ [] := by simp [hc]
      have hcut' := List.takeWhile_append_dropWhile (p := (!isBlank ·)) (l := c :: rest)
      refine .inr ⟨_, _, _, ?_, hblanks, hne, hword, hback, ?_⟩
      · rw [hcut', ← hrest, hcut]
      · have hskipped := words_append_of_blanks hblanks (text.dropWhile isBlank)
        rw [hcut, hrest, ← hcut'] at hskipped
        exact hskipped.trans (words_append hne hword hback)

-- Behind its blanks a text begins as its first word does.
theorem head?_trimStart_of_words {text word : List Char} {others : List (List Char)}
    (h : words text = word :: others) : (trimStart text).head? = word.head? := by
  rcases words_cases text with
    ⟨hnone, -⟩ | ⟨front, first, back, rfl, hfront, hne, hclean, -, hwords⟩
  · rw [h] at hnone
    cases hnone
  · obtain rfl := (List.cons.inj (h.symm.trans hwords)).1
    obtain ⟨c, rest, rfl⟩ := List.exists_cons_of_ne_nil hne
    have hstart : trimStart (c :: rest ++ back) = c :: rest ++ back :=
      trimStart_eq_self fun d hd => by
        obtain rfl := Option.some.inj hd
        exact hclean c List.mem_cons_self
    rw [trimStart_append_of_blanks hfront, hstart]
    rfl

-- Two words stand among blanks, and blanks keep them apart.
theorem words_eq_pair_iff {text a b : List Char} : words text = [a, b] ↔
    ∃ front middle back, text = front ++ (a ++ (middle ++ (b ++ back))) ∧
      (∀ c ∈ front ++ (middle ++ back), isBlank c = true) ∧ middle ≠ [] ∧
      (a ≠ [] ∧ ∀ c ∈ a, isBlank c = false) ∧ b ≠ [] ∧ ∀ c ∈ b, isBlank c = false := by
  constructor
  · intro h
    rcases words_cases text with ⟨hnone, -⟩ |
      ⟨front, first, rest, rfl, hfront, ha, haClean, hrest, hwords⟩
    · rw [h] at hnone
      cases hnone
    rw [h, List.cons.injEq] at hwords
    obtain ⟨rfl, hrestWords⟩ := hwords
    rcases words_cases rest with ⟨hnone, -⟩ |
      ⟨middle, second, back, rfl, hmiddle, hb, hbClean, -, hwords⟩
    · rw [hnone] at hrestWords
      cases hrestWords
    rw [← hrestWords, List.cons.injEq] at hwords
    obtain ⟨rfl, hbackWords⟩ := hwords
    rcases words_cases back with ⟨-, hback⟩ | ⟨_, _, _, _, _, _, _, _, hwords⟩
    · refine ⟨front, middle, back, rfl, ?_, ?_, ⟨ha, haClean⟩, hb, hbClean⟩
      · simpa [or_imp, forall_and] using ⟨hfront, hmiddle, hback⟩
      · -- otherwise the second word would begin where a blank has to be
        rintro rfl
        obtain ⟨c, others, rfl⟩ := List.exists_cons_of_ne_nil hb
        have hblank := hrest c rfl
        rw [hbClean c List.mem_cons_self] at hblank
        cases hblank
    · rw [← hbackWords] at hwords
      cases hwords
  · rintro ⟨front, middle, back, rfl, hblanks, hmiddle, ⟨ha, haClean⟩, hb, hbClean⟩
    simp only [List.mem_append, or_imp, forall_and] at hblanks
    obtain ⟨hfront, hmiddleBlank, hback⟩ := hblanks
    have hend : words back = [] := by
      have hwords := words_append_of_blanks hback []
      rwa [List.append_nil] at hwords
    have hbehind : ∀ d ∈ (middle ++ (b ++ back)).head?, isBlank d = true := by
      obtain ⟨c, others, rfl⟩ := List.exists_cons_of_ne_nil hmiddle
      rintro d hd
      obtain rfl := Option.some.inj hd
      exact hmiddleBlank c List.mem_cons_self
    rw [words_append_of_blanks hfront, words_append ha haClean hbehind,
      words_append_of_blanks hmiddleBlank,
      words_append hb hbClean fun d hd => hback d (List.mem_of_mem_head? hd), hend]

end

section

theorem mem_integer {n : Int} {c : Char} (h : c ∈ integer n) :
    c = '-' ∨ ∃ d, d < 10 ∧ c = digitChar d := by
  cases n with
  | ofNat n => exact .inr (mem_digits h)
  | negSucc n =>
      rcases List.mem_cons.mp h with rfl | hm
      · exact .inl rfl
      · exact .inr (mem_digits hm)

-- What holds of the sign and of the ten digits holds of every character of a numeral.
theorem forall_mem_integer {P : Char → Prop} (hsign : P '-')
    (hdigit : ∀ d : Fin 10, P (digitChar d))
    {n : Int} : ∀ c ∈ integer n, P c := by
  intro c hc
  rcases mem_integer hc with rfl | ⟨d, hd, rfl⟩
  · exact hsign
  · exact hdigit ⟨d, hd⟩

theorem isBlank_of_mem_integer {n : Int} : ∀ c ∈ integer n, isBlank c = false :=
  forall_mem_integer (by decide) (by decide)

theorem integer_ne_nil (n : Int) : integer n ≠ [] := by
  cases n with
  | ofNat n => exact digits_ne_nil n
  | negSucc n => exact List.cons_ne_nil _ _

theorem trim_integer (n : Int) : trim (integer n) = integer n :=
  trim_eq_self (fun c hc => isBlank_of_mem_integer c (List.mem_of_mem_head? hc))
    (fun c hc => isBlank_of_mem_integer c (List.mem_of_mem_getLast? hc))

theorem int64?_toInt (n : Int64) : int64? n.toInt = some n := by
  rw [int64?, if_pos ⟨n.minValue_le_toInt, n.toInt_le⟩, Int64.ofInt_toInt]

theorem word64?_toNat (n : UInt64) : word64? n.toNat = some n := by
  have hrange : (0 : Int) ≤ n.toNat ∧ (n.toNat : Int) < 18446744073709551616 := by
    have hlt := n.toNat_lt
    omega
  rw [word64?, if_pos hrange, Int.toNat_natCast, UInt64.ofNat_toNat]

theorem int32?_toInt (n : Int32) : int32? n.toInt = some n := by
  rw [int32?, if_pos ⟨n.minValue_le_toInt, n.toInt_le⟩, Int32.ofInt_toInt]

end

end DelayInjection.Text
