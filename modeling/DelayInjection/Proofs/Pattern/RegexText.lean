import Mathlib.Data.List.Basic
import DelayInjection.Proofs.Pattern
import DelayInjection.Proofs.Text.Cuts

-- The regular expression of a pattern, as a text. Between its anchors it is a code for the
-- pattern: read from left to right it falls into pieces in one way, and each piece stands for one
-- character of the pattern.

namespace DelayInjection

namespace Wildcard

-- A piece of a regular expression: a character behind a backslash, a dot with a star, or a
-- character alone.
inductive RegexToken
  | escaped (c : Char)
  | anyRun
  | plain (c : Char)
deriving DecidableEq

namespace RegexToken

def text : RegexToken → List Char
  | escaped c => ['\\', c]
  | anyRun => ['.', '*']
  | plain c => [c]

-- The pattern character that the piece stands for.
def meaning : RegexToken → Char
  | escaped c => c
  | anyRun => '*'
  | plain c => c

-- A character alone is no operator.
def Readable : RegexToken → Prop
  | escaped _ => True
  | anyRun => True
  | plain c => isOperator c = false

-- There is a backslash before every operator and nowhere else, and no star behind a backslash.
def Proper : RegexToken → Prop
  | escaped c => isOperator c = true ∧ c ≠ '*'
  | anyRun => True
  | plain c => isOperator c = false

theorem Proper.readable {token : RegexToken} (h : token.Proper) : token.Readable := by
  cases token with
  | escaped _ => trivial
  | anyRun => trivial
  | plain _ => exact h

-- The piece that is written for a pattern character.
def ofChar (c : Char) : RegexToken :=
  if c = '*' then anyRun else if isOperator c then escaped c else plain c

theorem text_ofChar (c : Char) : (ofChar c).text = regexPiece c := by
  rw [ofChar, regexPiece]
  split
  · rfl
  · split <;> rfl

theorem meaning_ofChar (c : Char) : (ofChar c).meaning = c := by
  rw [ofChar]
  split
  · rename_i hstar
    exact hstar.symm
  · split <;> rfl

theorem proper_ofChar (c : Char) : (ofChar c).Proper := by
  rw [ofChar]
  split
  · trivial
  · rename_i hstar
    split
    · rename_i hoperator
      exact ⟨hoperator, hstar⟩
    · rename_i hplain
      exact Bool.eq_false_iff.mpr hplain

end RegexToken

-- Reads the inside of a regular expression from left to right, a backslash with the character
-- behind it, a dot with a star, and any other character alone.
def tokens : List Char → List RegexToken
  | '\\' :: c :: rest => .escaped c :: tokens rest
  | '.' :: '*' :: rest => .anyRun :: tokens rest
  | c :: rest => .plain c :: tokens rest
  | [] => []

section

variable {c : Char}

theorem tokens_plain (rest : List Char) (hc : isOperator c = false) :
    tokens (c :: rest) = .plain c :: tokens rest := by
  have hbackslash : c ≠ '\\' := by
    rintro rfl
    cases hc
  have hdot : c ≠ '.' := by
    rintro rfl
    cases hc
  rw [tokens]
  · exact fun _ _ h => absurd h hbackslash
  · exact fun _ h => absurd h hdot

theorem tokens_append {token : RegexToken} (h : token.Readable) (rest : List Char) :
    tokens (token.text ++ rest) = token :: tokens rest := by
  cases token with
  | escaped _ => rfl
  | anyRun => rfl
  | plain _ => exact tokens_plain rest h

-- Readable pieces that are written one after the other are found again.
theorem tokens_flatMap {pieces : List RegexToken} (h : ∀ token ∈ pieces, token.Readable) :
    tokens (pieces.flatMap RegexToken.text) = pieces := by
  induction pieces with
  | nil => rfl
  | cons token rest ih =>
      obtain ⟨htoken, hrest⟩ := List.forall_mem_cons.mp h
      rw [List.flatMap_cons, tokens_append htoken, ih hrest]

-- Reading loses nothing.
theorem flatMap_tokens (inside : List Char) :
    (tokens inside).flatMap RegexToken.text = inside := by
  fun_induction tokens inside with
  | case1 c rest ih => rw [List.flatMap_cons, ih]; rfl
  | case2 rest ih => rw [List.flatMap_cons, ih]; rfl
  | case3 c rest _ _ ih => rw [List.flatMap_cons, ih]; rfl
  | case4 => rfl

end

section

variable (pattern : List Char)

theorem flatMap_regexPiece :
    pattern.flatMap regexPiece = (pattern.map RegexToken.ofChar).flatMap RegexToken.text := by
  rw [List.flatMap_map]
  exact List.flatMap_congr fun c _ => (RegexToken.text_ofChar c).symm

theorem proper_map_ofChar : ∀ token ∈ pattern.map RegexToken.ofChar, token.Proper := by
  intro token hm
  obtain ⟨c, -, rfl⟩ := List.mem_map.mp hm
  exact RegexToken.proper_ofChar c

theorem tokens_regexPieces :
    tokens (pattern.flatMap regexPiece) = pattern.map RegexToken.ofChar := by
  rw [flatMap_regexPiece]
  exact tokens_flatMap fun token hm => (proper_map_ofChar pattern token hm).readable

theorem map_meaning_tokens :
    (tokens (pattern.flatMap regexPiece)).map RegexToken.meaning = pattern := by
  rw [tokens_regexPieces, List.map_map]
  exact List.map_id'' RegexToken.meaning_ofChar pattern

end

-- The text of a regular expression that matches a text literally.
def escape (text : List Char) : List Char :=
  text.flatMap fun c => if isOperator c then ['\\', c] else [c]

-- The inside of a regular expression is made of the pieces between the stars of the pattern.
theorem flatMap_regexPiece_eq_joinWith (pattern : List Char) :
    pattern.flatMap regexPiece =
      Text.joinWith ['.', '*'] ((Text.splitAll '*' pattern).map escape) := by
  have hpiece : ∀ piece ∈ Text.splitAll '*' pattern, piece.flatMap regexPiece = escape piece := by
    intro piece hm
    apply List.flatMap_congr
    intro c hc
    have hstar : c ≠ '*' := by
      rintro rfl
      exact Text.not_mem_of_mem_splitAll hm hc
    rw [regexPiece, if_neg hstar]
  have hstars : ['*'].flatMap regexPiece = ['.', '*'] := rfl
  conv_lhs => rw [← Text.joinWith_splitAll '*' pattern]
  rw [Text.flatMap_joinWith, hstars, List.map_congr_left hpiece]

end Wildcard

namespace Pattern

open Wildcard

theorem toList_regexText (text : String) :
    (regexText text).toList = '^' :: text.toList.flatMap regexPiece ++ ['$'] := by
  rw [regexText, String.toList_ofList, regex]

-- The regular expression of a pattern has an anchor at each end. What stands between them is joined
-- from the escaped pieces between the stars, and it is a code for the pattern: read from left to
-- right it gives the pattern back, no operator stands in it but behind a backslash and in a dot
-- with a star, and it cannot be cut in another way into pieces that can be read. So a pattern is
-- determined by its regular expression.
theorem regexText_determines (pattern : String) :
    (∃ inside, (regexText pattern).toList = '^' :: inside ++ ['$'] ∧
      inside = Text.joinWith ['.', '*'] ((Text.splitAll '*' pattern.toList).map escape) ∧
      (tokens inside).map RegexToken.meaning = pattern.toList ∧
      (∀ token ∈ tokens inside, token.Proper) ∧
      ∀ pieces : List RegexToken,
        (∀ token ∈ pieces, token.Readable) ∧ pieces.flatMap RegexToken.text = inside ↔
          pieces = tokens inside) ∧
    ∀ other, regexText other = regexText pattern ↔ other = pattern := by
  have hproper : ∀ token ∈ tokens (pattern.toList.flatMap regexPiece), token.Proper := by
    rw [tokens_regexPieces]
    exact proper_map_ofChar pattern.toList
  constructor
  · refine ⟨_, toList_regexText pattern, flatMap_regexPiece_eq_joinWith _, map_meaning_tokens _,
      hproper, fun pieces => ?_⟩
    constructor
    · rintro ⟨hreadable, htext⟩
      rw [← htext, tokens_flatMap hreadable]
    · rintro rfl
      exact ⟨fun token hm => (hproper token hm).readable, flatMap_tokens _⟩
  · intro other
    constructor
    · intro h
      have hinside := congrArg String.toList h
      rw [toList_regexText, toList_regexText, List.append_left_inj, List.cons.injEq] at hinside
      rw [← String.toList_inj, ← map_meaning_tokens other.toList, hinside.2, map_meaning_tokens]
    · rintro rfl
      rfl

-- A backslash and a dot of the pattern in front of two stars.
example : regexText "a\\.**" = "^a\\\\\\..*.*$" := by decide +kernel

end Pattern

end DelayInjection
