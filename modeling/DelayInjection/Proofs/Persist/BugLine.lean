import DelayInjection.Persist.Line
import DelayInjection.Proofs.Text.Cuts

-- The lines of a bug file: which pairs are read back from their line, and what is read from a line
-- whose two words change places.

namespace DelayInjection

-- Keys that stand on a line as one word.
def IsWord (key : String) : Prop := key.toList ≠ [] ∧ ∀ c ∈ key.toList, Text.isBlank c = false

instance : DecidablePred IsWord := fun key =>
  decidable_of_iff (key.toList ≠ [] ∧ key.toList.all (!Text.isBlank ·) = true) (by simp [IsWord])

theorem IsWord.words_eq {key : String} (h : IsWord key) :
    Text.words key.toList = [key.toList] := by
  have hwords : Text.words (key.toList ++ []) = [key.toList] := Text.words_append h.1 h.2 nofun
  rwa [List.append_nil] at hwords

-- The blanks in front of two words, between them and behind them.
structure Spacing where
  front : List Char := []
  middle : List Char := [' ']
  back : List Char := []
  blank : (front ++ (middle ++ back)).all Text.isBlank = true := by decide
  apart : middle ≠ [] := by decide

def Spacing.line (spacing : Spacing) (a b : String) : String :=
  String.ofList (spacing.front ++ (a.toList ++ (spacing.middle ++ (b.toList ++ spacing.back))))

theorem words_eq_keys_iff {line a b : String} :
    Text.words line.toList = [a.toList, b.toList] ↔
      ∃ spacing : Spacing, line = spacing.line a b ∧ IsWord a ∧ IsWord b := by
  rw [Text.words_eq_pair_iff]
  constructor
  · rintro ⟨front, middle, back, hline, hblank, hapart, ha, hb⟩
    refine ⟨⟨front, middle, back, List.all_eq_true.mpr hblank, hapart⟩, ?_, ha, hb⟩
    rw [Spacing.line, ← hline, String.ofList_toList]
  · rintro ⟨spacing, rfl, ha, hb⟩
    exact ⟨_, _, _, String.toList_ofList, List.all_eq_true.mp spacing.blank, spacing.apart, ha, hb⟩

-- A line is skipped when there is nothing on it, or when it begins with `#` behind its blanks.
theorem isSkipped_eq (line : List Char) :
    isSkipped line = (Text.trimStart line).head?.all (· == '#') := by
  have hclean := Text.head?_trimStart line
  cases hstart : Text.trimStart line with
  | nil =>
      rw [isSkipped, Text.trim, hstart]
      rfl
  | cons c rest =>
      rw [hstart] at hclean
      have hhead : c ∈ (Text.trim (c :: rest)).head? := Text.head?_trim_eq rfl (hclean c rfl)
      obtain ⟨others, hothers⟩ := List.head?_eq_some_iff.mp hhead
      rw [Text.trim, Text.trimStart_eq_self hclean] at hothers
      rw [isSkipped, Text.trim, hstart, hothers]
      rfl

namespace BugLine

section

variable {line : List Char} {a b : String} {pair : LocationPair}

-- What is read from a line with two words: a comment, or a pair of them.
theorem ofChars_of_words (h : Text.words line = [a.toList, b.toList]) :
    ofChars line =
      if a.toList.head? = some '#' then .ok none else .ok (some (.of a b)) := by
  have hne : a.toList ≠ [] := Text.words_ne_nil_of_mem (h ▸ List.mem_cons_self)
  rw [ofChars, isSkipped_eq, Text.head?_trimStart_of_words h, h, List.head?_eq_some_head hne]
  simp

theorem words_of_ofChars (h : ofChars line = .ok (some pair)) :
    ∃ a b : String, Text.words line = [a.toList, b.toList] ∧ pair = .of a b := by
  unfold ofChars at h
  split at h
  · cases h
  · split at h
    · rename_i a b hwords
      obtain rfl := Option.some.inj (Except.ok.inj h)
      refine ⟨String.ofList a, String.ofList b, ?_, rfl⟩
      rw [hwords, String.toList_ofList, String.toList_ofList]
    · cases h

end

end BugLine

namespace LocationPair

-- Pairs whose line is read back. Only the larger key could make a comment of it.
structure Recordable (pair : LocationPair) : Prop where
  first : IsWord pair.first
  second : IsWord pair.second
  plain : pair.first.toList.head? ≠ some '#'

instance : DecidablePred Recordable := fun pair =>
  decidable_of_iff
    (IsWord pair.first ∧ IsWord pair.second ∧ pair.first.toList.head? ≠ some '#')
    ⟨fun h => ⟨h.1, h.2.1, h.2.2⟩, fun h => ⟨h.first, h.second, h.plain⟩⟩

section

variable {pair : LocationPair} {a b : String}

theorem of_first_second (pair : LocationPair) : of pair.first pair.second = pair :=
  dif_pos pair.ordered

-- What is true of two keys is true of the keys of their pair.
theorem of_keys {P : String → Prop} (ha : P a) (hb : P b) :
    P (of a b).first ∧ P (of a b).second := by
  unfold of
  split
  · exact ⟨ha, hb⟩
  · exact ⟨hb, ha⟩

theorem toList_text (pair : LocationPair) :
    pair.text.toList = pair.first.toList ++ ' ' :: pair.second.toList := by
  simp [text]

theorem words_text (hfirst : IsWord pair.first) (hsecond : IsWord pair.second) :
    Text.words pair.text.toList = [pair.first.toList, pair.second.toList] := by
  rw [words_eq_keys_iff]
  refine ⟨{}, ?_, hfirst, hsecond⟩
  rw [← String.toList_inj, toList_text, Spacing.line, String.toList_ofList]
  simp

theorem ofChars_text (h : pair.Recordable) :
    BugLine.ofChars pair.text.toList = .ok (some pair) := by
  rw [BugLine.ofChars_of_words (words_text h.first h.second), if_neg h.plain, of_first_second]

theorem recordable_of_ofChars (h : BugLine.ofChars pair.text.toList = .ok (some pair)) :
    pair.Recordable := by
  obtain ⟨a, b, hwords, hpair⟩ := BugLine.words_of_ofChars h
  obtain ⟨-, -, ha, hb⟩ := words_eq_keys_iff.mp hwords
  obtain ⟨hfirst, hsecond⟩ := of_keys ha hb
  rw [← hpair] at hfirst hsecond
  refine ⟨hfirst, hsecond, fun hcomment => ?_⟩
  rw [BugLine.ofChars_of_words (words_text hfirst hsecond), if_pos hcomment] at h
  cases h

-- A line of blank-free keys is not cut, and nothing is taken from its end.
theorem text_uncut (h : pair.Recordable) :
    '\n' ∉ pair.text.toList ∧ pair.text.toList.getLast? ≠ some '\r' := by
  have hclean : ∀ c ∈ pair.text.toList, c = ' ' ∨ Text.isBlank c = false := by
    intro c hc
    rw [toList_text, List.mem_append, List.mem_cons] at hc
    rcases hc with hc | hc | hc
    · exact .inr (h.first.2 c hc)
    · exact .inl hc
    · exact .inr (h.second.2 c hc)
  constructor
  · intro hm
    exact absurd (hclean '\n' hm) (by decide)
  · intro hlast
    exact absurd (hclean '\r' (List.mem_of_mem_getLast? hlast)) (by decide)

end

end LocationPair

namespace BugLine

-- A pair is read back from its line exactly when its keys are words and the larger one does not
-- begin with `#`. A line that is read as a pair consists of two words, which are the keys of the
-- pair in order. When they change places and the blanks stay, the line says the same, unless it
-- begins with `#` then behind its blanks, which makes a comment of it.
theorem keys_round_trip :
    (∀ pair : LocationPair, parse pair.text = .ok (some pair) ↔
        IsWord pair.first ∧ IsWord pair.second ∧ pair.first.toList.head? ≠ some '#') ∧
      (∀ line pair, parse line = .ok (some pair) →
        IsWord pair.first ∧ IsWord pair.second ∧ pair.second ≤ pair.first ∧
          ∃ (spacing : Spacing) (a b : String), line = spacing.line a b ∧ IsWord a ∧ IsWord b) ∧
      ∀ (spacing : Spacing) (a b : String) (pair : LocationPair), IsWord a → IsWord b →
        parse (spacing.line a b) = .ok (some pair) →
        parse (spacing.line b a) =
          if (Text.trimStart (spacing.line b a).toList).head? = some '#' then .ok none
          else .ok (some pair) := by
  refine ⟨fun pair => ⟨fun h => ?_, fun h => ?_⟩, fun line pair h => ?_,
    fun spacing a b pair ha hb h => ?_⟩
  · have hrecordable := LocationPair.recordable_of_ofChars h
    exact ⟨hrecordable.first, hrecordable.second, hrecordable.plain⟩
  · exact LocationPair.ofChars_text ⟨h.1, h.2.1, h.2.2⟩
  · obtain ⟨a, b, hwords, hpair⟩ := words_of_ofChars h
    obtain ⟨spacing, hline, ha, hb⟩ := words_eq_keys_iff.mp hwords
    obtain ⟨hfirst, hsecond⟩ := LocationPair.of_keys ha hb
    rw [← hpair] at hfirst hsecond
    exact ⟨hfirst, hsecond, pair.ordered, spacing, a, b, hline, ha, hb⟩
  · have hwords := words_eq_keys_iff.mpr ⟨spacing, rfl, ha, hb⟩
    have hswapped := words_eq_keys_iff.mpr ⟨spacing, rfl, hb, ha⟩
    have hpair : pair = .of a b := by
      rw [parse, ofChars_of_words hwords] at h
      split at h
      · cases h
      · exact (Option.some.inj (Except.ok.inj h)).symm
    rw [parse, ofChars_of_words hswapped, Text.head?_trimStart_of_words hswapped, hpair,
      LocationPair.of_comm]

namespace Sample

def indented : Spacing := { front := [' '] }

def wide : Spacing := { middle := ['\t', ' '], back := [' '] }

def marked : LocationPair := .of "#Add|M|1" "Get|M|3"

end Sample

-- A smaller key may begin with `#`, as long as it comes second.
theorem keys_round_trip_of_marked :
    parse Sample.marked.text = .ok (some Sample.marked) ∧
      parse (Sample.wide.line "Put|M|4" "Get|M|3") =
        parse (Sample.wide.line "Get|M|3" "Put|M|4") ∧
      parse (Sample.wide.line "#Add|M|1" "Get|M|3") = .ok none := by
  obtain ⟨hread, -, hswap⟩ := keys_round_trip
  have hplain : parse (Sample.wide.line "Get|M|3" "Put|M|4") =
      .ok (some (.of "Get|M|3" "Put|M|4")) := by
    decide +kernel
  have hcomment : parse (Sample.wide.line "Get|M|3" "#Add|M|1") = .ok (some Sample.marked) := by
    decide +kernel
  refine ⟨(hread Sample.marked).mpr (by decide +kernel), ?_, ?_⟩
  · rw [hplain,
      hswap Sample.wide "Get|M|3" "Put|M|4" _ (by decide +kernel) (by decide +kernel) hplain,
      if_neg (by decide +kernel)]
  · rw [hswap Sample.wide "Get|M|3" "#Add|M|1" _ (by decide +kernel) (by decide +kernel) hcomment,
      if_pos (by decide +kernel)]

-- A line that begins with a blank does not begin with `#`, and may still be a comment.
theorem keys_swapped_behind_blank :
    ¬ ∀ (spacing : Spacing) (a b : String) (pair : LocationPair), IsWord a → IsWord b →
      parse (spacing.line a b) = .ok (some pair) → (spacing.line b a).toList.head? ≠ some '#' →
      parse (spacing.line b a) = .ok (some pair) := by
  intro hclaim
  have hread : parse (Sample.indented.line "Get|M|3" "#Add|M|1") = .ok (some Sample.marked) := by
    decide +kernel
  have hskipped : parse (Sample.indented.line "#Add|M|1" "Get|M|3") = .ok none := by
    decide +kernel
  have hswapped := hclaim Sample.indented "Get|M|3" "#Add|M|1" Sample.marked (by decide +kernel)
    (by decide +kernel) hread (by decide +kernel)
  rw [hskipped] at hswapped
  cases hswapped

end BugLine

end DelayInjection
