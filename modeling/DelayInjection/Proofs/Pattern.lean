import Mathlib.Data.List.Basic
import DelayInjection.Pattern

-- What a pattern covers, read from its characters alone. The rows of the matcher are only a way
-- of asking this for all ends of a signature at once. The regular expression of a pattern, read
-- character by character, covers the same.

namespace DelayInjection

namespace Wildcard

-- The texts that a pattern stands for: every star is replaced by some run of characters without
-- a line feed.
inductive StandsFor : List Char → List Char → Prop
  | empty : StandsFor [] []
  | literal {c : Char} {pattern text : List Char} (hc : c ≠ '*') (h : StandsFor pattern text) :
      StandsFor (c :: pattern) (c :: text)
  | star {run pattern text : List Char} (hrun : '\n' ∉ run) (h : StandsFor pattern text) :
      StandsFor ('*' :: pattern) (run ++ text)

section

variable {c : Char} {pattern text : List Char}

theorem standsFor_literal_iff (hc : c ≠ '*') :
    StandsFor (c :: pattern) text ↔ ∃ rest, text = c :: rest ∧ StandsFor pattern rest := by
  constructor
  · intro h
    cases h with
    | literal _ h => exact ⟨_, rfl, h⟩
    | star _ _ => exact absurd rfl hc
  · rintro ⟨rest, rfl, h⟩
    exact .literal hc h

-- A star stands for nothing more, or takes the next character.
theorem standsFor_star_iff :
    StandsFor ('*' :: pattern) text ↔ StandsFor pattern text ∨
      ∃ x rest, text = x :: rest ∧ x ≠ '\n' ∧ StandsFor ('*' :: pattern) rest := by
  constructor
  · intro h
    cases h with
    | literal hc _ => exact absurd rfl hc
    | @star run _ behind hrun h =>
        cases run with
        | nil => exact .inl h
        | cons x others =>
            rw [List.mem_cons, not_or] at hrun
            exact .inr ⟨x, others ++ behind, rfl, Ne.symm hrun.1, .star hrun.2 h⟩
  · rintro (h | ⟨x, rest, rfl, hx, h⟩)
    · exact @StandsFor.star [] pattern text (by simp) h
    · cases h with
      | literal hc _ => exact absurd rfl hc
      | @star run _ behind hrun h =>
          exact @StandsFor.star (x :: run) pattern _ (by simp [hrun, Ne.symm hx]) h

-- A text without a line feed is one of those that it stands for itself.
theorem standsFor_self (h : '\n' ∉ text) : StandsFor text text := by
  induction text with
  | nil => exact .empty
  | cons c rest ih =>
      rw [List.mem_cons, not_or] at h
      by_cases hc : c = '*'
      · subst hc
        exact @StandsFor.star ['*'] rest rest (by simp) (ih h.2)
      · exact .literal hc (ih h.2)

end

section

variable {c : Char}

-- The row for one character more has the answer for the whole signature in front.
theorem row_cons (pattern : List Char) (x : Char) (signature : List Char) :
    row pattern (x :: signature) = covers pattern (x :: signature) :: row pattern signature := by
  have hrow : ∃ answer, row pattern (x :: signature) = answer :: row pattern signature := by
    induction pattern with
    | nil => exact ⟨false, rfl⟩
    | cons c rest ih =>
        obtain ⟨answer, hanswer⟩ := ih
        rw [row] at hanswer
        by_cases hc : c = '*' <;> simp [row, hc, hanswer, starRow, literalRow]
  obtain ⟨answer, hanswer⟩ := hrow
  rw [covers, hanswer]
  rfl

theorem covers_star_nil (pattern : List Char) : covers ('*' :: pattern) [] = covers pattern [] := by
  simp [covers, row, starRow]

theorem covers_star_cons (pattern : List Char) (x : Char) (signature : List Char) :
    covers ('*' :: pattern) (x :: signature) =
      (covers pattern (x :: signature) || (x != '\n' && covers ('*' :: pattern) signature)) := by
  have hrow := row_cons pattern x signature
  have hstar : ∀ text, row ('*' :: pattern) text = starRow text (row pattern text) := fun text => by
    simp [row]
  rw [covers, hstar, hrow, starRow, List.headD_cons, ← hstar]
  rfl

theorem covers_literal_nil (pattern : List Char) (hc : c ≠ '*') :
    covers (c :: pattern) [] = false := by
  simp [covers, row, hc, literalRow]

theorem covers_literal_cons (pattern : List Char) (hc : c ≠ '*') (x : Char)
    (signature : List Char) :
    covers (c :: pattern) (x :: signature) = (x == c && covers pattern signature) := by
  have hrow := row_cons pattern x signature
  have hliteral : ∀ text, row (c :: pattern) text = literalRow c text (row pattern text) :=
    fun text => by simp [row, hc]
  rw [covers, hliteral, hrow, literalRow, List.headD_cons]
  rfl

-- The matcher accepts exactly the texts that the pattern stands for.
theorem covers_iff (pattern signature : List Char) :
    covers pattern signature = true ↔ StandsFor pattern signature := by
  induction pattern generalizing signature with
  | nil =>
      cases signature with
      | nil => exact ⟨fun _ => .empty, fun _ => rfl⟩
      | cons x rest => exact ⟨nofun, nofun⟩
  | cons c rest ih =>
      by_cases hc : c = '*'
      · subst hc
        induction signature with
        | nil =>
            rw [covers_star_nil, standsFor_star_iff, ih]
            simp
        | cons x others ihs =>
            rw [covers_star_cons, standsFor_star_iff, Bool.or_eq_true, Bool.and_eq_true, ih, ihs,
              bne_iff_ne]
            simp
      · rw [standsFor_literal_iff hc]
        cases signature with
        | nil => simp [covers_literal_nil rest hc]
        | cons x others =>
            rw [covers_literal_cons rest hc, Bool.and_eq_true, ih, beq_iff_eq]
            simp

end

-- A pattern whose stars are replaced, one after the other, by the given runs.
def fill : List Char → List (List Char) → List Char
  | [], _ => []
  | c :: pattern, runs =>
      if c = '*' then runs.headD [] ++ fill pattern runs.tail else c :: fill pattern runs

section

variable {c : Char} {pattern text : List Char}

theorem stars_cons (c : Char) (pattern : List Char) :
    stars (c :: pattern) = stars pattern + if c = '*' then 1 else 0 := by
  simp [stars, List.countP_cons]

-- One run for every star makes every text that the pattern stands for, and no other.
theorem standsFor_iff_fill : StandsFor pattern text ↔
    ∃ runs, runs.length = stars pattern ∧ (∀ run ∈ runs, '\n' ∉ run) ∧
      text = fill pattern runs := by
  constructor
  · intro h
    induction h with
    | empty => exact ⟨[], rfl, nofun, rfl⟩
    | literal hc _ ih =>
        obtain ⟨runs, hlength, hruns, rfl⟩ := ih
        refine ⟨runs, ?_, hruns, ?_⟩
        · rw [hlength, stars_cons, if_neg hc, Nat.add_zero]
        · rw [fill, if_neg hc]
    | @star run _ _ hrun _ ih =>
        obtain ⟨runs, hlength, hruns, rfl⟩ := ih
        refine ⟨run :: runs, ?_, List.forall_mem_cons.mpr ⟨hrun, hruns⟩, ?_⟩
        · rw [List.length_cons, hlength, stars_cons, if_pos rfl]
        · rw [fill, if_pos rfl, List.headD_cons, List.tail_cons]
  · rintro ⟨runs, hlength, hruns, rfl⟩
    induction pattern generalizing runs with
    | nil => exact .empty
    | cons c rest ih =>
        rw [stars_cons] at hlength
        by_cases hc : c = '*'
        · subst hc
          rw [if_pos rfl] at hlength
          obtain ⟨run, others, rfl⟩ := List.exists_cons_of_length_eq_add_one hlength
          obtain ⟨hrun, hothers⟩ := List.forall_mem_cons.mp hruns
          exact .star hrun (ih others (Nat.succ.inj hlength) hothers)
        · rw [if_neg hc, Nat.add_zero] at hlength
          rw [fill, if_neg hc]
          exact .literal hc (ih runs hlength hruns)

-- Without a star there is nothing to replace.
theorem standsFor_iff_eq (h : '*' ∉ pattern) : StandsFor pattern text ↔ text = pattern := by
  induction pattern generalizing text with
  | nil => exact ⟨fun h => by cases h; rfl, fun h => h ▸ .empty⟩
  | cons c rest ih =>
      rw [List.mem_cons, not_or] at h
      rw [standsFor_literal_iff (Ne.symm h.1)]
      simp [ih h.2]

end

-- How the inside of a regular expression of this kind is read: after a backslash an operator
-- stands for itself, a dot with a star for any run without a line feed, and every character that
-- is no operator for itself.
inductive RegexReads : List Char → List Char → Prop
  | done : RegexReads [] []
  | escaped {c : Char} {regex text : List Char} (hc : isOperator c = true)
      (h : RegexReads regex text) : RegexReads ('\\' :: c :: regex) (c :: text)
  | anyRun {run regex text : List Char} (hrun : '\n' ∉ run) (h : RegexReads regex text) :
      RegexReads ('.' :: '*' :: regex) (run ++ text)
  | plain {c : Char} {regex text : List Char} (hc : isOperator c = false)
      (h : RegexReads regex text) : RegexReads (c :: regex) (c :: text)

-- The anchors stand at both ends of the text.
def RegexMatches (regex text : List Char) : Prop :=
  ∃ inside, regex = '^' :: inside ++ ['$'] ∧ RegexReads inside text

section

variable {c : Char} {pattern regex text : List Char}

theorem regexPiece_star : regexPiece '*' = ['.', '*'] := rfl

theorem regexPiece_operator (hstar : c ≠ '*') (hc : isOperator c = true) :
    regexPiece c = ['\\', c] := by
  rw [regexPiece, if_neg hstar, if_pos hc]

theorem regexPiece_plain (hc : isOperator c = false) : regexPiece c = [c] := by
  have hstar : c ≠ '*' := by
    rintro rfl
    cases hc
  rw [regexPiece, if_neg hstar, if_neg (by simp [hc])]

theorem regexReads_anyRun_iff : RegexReads ('.' :: '*' :: regex) text ↔
    ∃ run rest, '\n' ∉ run ∧ text = run ++ rest ∧ RegexReads regex rest := by
  constructor
  · intro h
    cases h with
    | anyRun hrun h => exact ⟨_, _, hrun, rfl, h⟩
    | plain hc _ => exact absurd hc (by decide)
  · rintro ⟨run, rest, hrun, rfl, h⟩
    exact .anyRun hrun h

theorem regexReads_escaped_iff (hc : isOperator c = true) :
    RegexReads ('\\' :: c :: regex) text ↔ ∃ rest, text = c :: rest ∧ RegexReads regex rest := by
  constructor
  · intro h
    cases h with
    | escaped _ h => exact ⟨_, rfl, h⟩
    | plain hbackslash _ => exact absurd hbackslash (by decide)
  · rintro ⟨rest, rfl, h⟩
    exact .escaped hc h

theorem regexReads_plain_iff (hc : isOperator c = false) :
    RegexReads (c :: regex) text ↔ ∃ rest, text = c :: rest ∧ RegexReads regex rest := by
  constructor
  · intro h
    cases h with
    | escaped _ _ => exact absurd hc (by decide)
    | anyRun _ _ => exact absurd hc (by decide)
    | plain _ h => exact ⟨_, rfl, h⟩
  · rintro ⟨rest, rfl, h⟩
    exact .plain hc h

-- Written as a regular expression, a pattern stands for the same texts.
theorem regexReads_iff :
    RegexReads (pattern.flatMap regexPiece) text ↔ StandsFor pattern text := by
  induction pattern generalizing text with
  | nil => exact ⟨fun h => by cases h; exact .empty, fun h => by cases h; exact .done⟩
  | cons c rest ih =>
      rw [List.flatMap_cons]
      by_cases hstar : c = '*'
      · subst hstar
        rw [regexPiece_star, List.cons_append, List.singleton_append, regexReads_anyRun_iff]
        constructor
        · rintro ⟨run, behind, hrun, rfl, h⟩
          exact .star hrun (ih.mp h)
        · intro h
          cases h with
          | literal hc _ => exact absurd rfl hc
          | star hrun h => exact ⟨_, _, hrun, rfl, ih.mpr h⟩
      · rw [standsFor_literal_iff hstar]
        cases hc : isOperator c with
        | true =>
            rw [regexPiece_operator hstar hc, List.cons_append, List.singleton_append,
              regexReads_escaped_iff hc]
            simp only [ih]
        | false =>
            rw [regexPiece_plain hc, List.singleton_append, regexReads_plain_iff hc]
            simp only [ih]

theorem regexMatches_iff : RegexMatches (Wildcard.regex pattern) text ↔ StandsFor pattern text := by
  rw [← regexReads_iff]
  constructor
  · rintro ⟨inside, hinside, h⟩
    rw [Wildcard.regex, List.append_left_inj, List.cons.injEq] at hinside
    rwa [hinside.2]
  · exact fun h => ⟨_, rfl, h⟩

end

end Wildcard

namespace Pattern

theorem accepts_iff (pattern : Pattern) (signature : String) :
    pattern.accepts signature = true ↔
      Wildcard.StandsFor pattern.text.toList signature.toList :=
  Wildcard.covers_iff _ _

-- A text is asked like the pattern that is compiled from it, and a refused one matches nothing.
theorem matchesText_of_compile? {limit : RegexLimit} {text : String} {pattern : Pattern}
    (h : compile? limit text = some pattern) (signature : String) :
    matchesText limit text signature = pattern.accepts signature := by
  rw [matchesText, h]

-- Whatever texts an engine takes, a text that it takes accepts the signatures that it becomes when
-- its stars are replaced by runs without a line feed, all else standing for itself. These are the
-- signatures that its regular expression matches, and without a star there is only one.
theorem accepts_filled {limit : RegexLimit} {text : String} {pattern : Pattern}
    (h : compile? limit text = some pattern) (signature : String) :
    (pattern.accepts signature = true ↔
      ∃ runs : List (List Char), runs.length = Wildcard.stars text.toList ∧
        (∀ run ∈ runs, '\n' ∉ run) ∧
        signature.toList = Wildcard.fill text.toList runs) ∧
    (pattern.accepts signature = true ↔
      Wildcard.RegexMatches (regexText text).toList signature.toList) ∧
    (isWildcard text = false → (pattern.accepts signature = true ↔ signature = text)) ∧
    matchesText limit text signature = pattern.accepts signature := by
  obtain rfl := text_of_compile? h
  refine ⟨?_, ?_, fun hplain => ?_, matchesText_of_compile? h signature⟩
  · rw [accepts_iff, Wildcard.standsFor_iff_fill]
  · rw [accepts_iff, regexText, String.toList_ofList, Wildcard.regexMatches_iff]
  · have hstar : '*' ∉ pattern.text.toList := by simpa [isWildcard] using hplain
    rw [accepts_iff, Wildcard.standsFor_iff_eq hstar, String.toList_inj]

-- An engine that takes expressions with up to nine thousand stars.
namespace Sample

def limit : RegexLimit where
  admits regex := regex.toList.count '*' ≤ 9000

def stars (n : Nat) : String := String.ofList (List.replicate n '*')

theorem count_regexText (n : Nat) : (regexText (stars n)).toList.count '*' = n := by
  have hinside : ((List.replicate n '*').flatMap Wildcard.regexPiece).count '*' = n := by
    induction n with
    | zero => rfl
    | succ n ih =>
        rw [List.replicate_succ, List.flatMap_cons, List.count_append, ih, Nat.add_comm]
        rfl
  rw [regexText, String.toList_ofList, stars, String.toList_ofList, Wildcard.regex,
    List.count_append, List.count_cons, hinside]
  rfl

theorem compile?_stars {n : Nat} (h : 9000 < n) : compile? limit (stars n) = none := by
  have hrefused : ¬ limit.admits (regexText (stars n)) = true := by
    simp only [limit, count_regexText, decide_eq_true_eq]
    omega
  rw [compile?, if_neg hrefused]

def dotted : Pattern := ⟨"Map.set(K)"⟩

def starred : Pattern := ⟨"Map.*(*"⟩

end Sample

theorem accepts_filled_dotted :
    Sample.dotted.accepts "Map.set(K)" = true ∧ ¬ Sample.dotted.accepts "Map_set(K)" = true ∧
      Sample.starred.accepts "Map.set(K)" = true := by
  have hdotted : compile? Sample.limit "Map.set(K)" = some Sample.dotted := rfl
  have hstarred : compile? Sample.limit "Map.*(*" = some Sample.starred := rfl
  have hplain : isWildcard "Map.set(K)" = false := by decide +kernel
  refine ⟨?_, ?_, ?_⟩
  · exact ((accepts_filled hdotted _).2.2.1 hplain).mpr rfl
  · rw [(accepts_filled hdotted _).2.2.1 hplain]
    decide
  · exact (accepts_filled hstarred _).1.mpr
      ⟨["set".toList, "K)".toList], by decide +kernel, by decide +kernel, by decide +kernel⟩

end Pattern

end DelayInjection
