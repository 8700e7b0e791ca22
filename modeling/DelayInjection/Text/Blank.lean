-- Blank characters and the texts cut at them. A character is blank when Unicode gives it the
-- White_Space property; the byte order mark and the zero width space are not blank.

namespace DelayInjection.Text

-- The code points with the White_Space property.
def isBlank (c : Char) : Bool :=
  let n := c.toNat
  (0x09 ≤ n && n ≤ 0x0D) || n == 0x20 || n == 0x85 || n == 0xA0 || n == 0x1680 ||
    (0x2000 ≤ n && n ≤ 0x200A) || n == 0x2028 || n == 0x2029 || n == 0x202F ||
    n == 0x205F || n == 0x3000

def trimStart (text : List Char) : List Char := text.dropWhile isBlank

def trimEnd (text : List Char) : List Char := (text.reverse.dropWhile isBlank).reverse

def trim (text : List Char) : List Char := trimEnd (trimStart text)

-- Puts a character in front of the word that is being read, or starts one.
private def growWord (c : Char) (startsWord : Bool) (words : List (List Char)) : List (List Char) :=
  match startsWord, words with
  | false, word :: rest => (c :: word) :: rest
  | _, words => [c] :: words

-- The maximal runs of characters that are not blank.
def words : List Char → List (List Char)
  | [] => []
  | c :: rest =>
      if isBlank c then words rest
      else growWord c (match rest with | [] => true | d :: _ => isBlank d) (words rest)

theorem words_ne_nil_of_mem {text : List Char} {word : List Char} (h : word ∈ words text) :
    word ≠ [] := by
  induction text generalizing word with
  | nil => simp [words] at h
  | cons c rest ih =>
      simp only [words] at h
      split at h
      · exact ih h
      · unfold growWord at h
        split at h
        · rename_i first others heq
          rcases List.mem_cons.mp h with rfl | hm
          · simp
          · exact ih (heq ▸ List.mem_cons_of_mem _ hm)
        · rcases List.mem_cons.mp h with rfl | hm
          · simp
          · exact ih hm

theorem words_cons_of_isBlank {c : Char} (h : isBlank c = true) (rest : List Char) :
    words (c :: rest) = words rest := by
  simp [words, h]

-- A word ends where the text ends, or at the first blank behind it.
theorem words_append {word rest : List Char} (hne : word ≠ [])
    (hword : ∀ c ∈ word, isBlank c = false) (hrest : ∀ d ∈ rest.head?, isBlank d = true) :
    words (word ++ rest) = word :: words rest := by
  induction word with
  | nil => exact absurd rfl hne
  | cons c others ih =>
      have hc : isBlank c = false := hword c List.mem_cons_self
      simp only [List.cons_append, words, hc, Bool.false_eq_true, if_false]
      cases others with
      | nil =>
          cases rest with
          | nil => rfl
          | cons d behind =>
              simp only [List.nil_append, hrest d rfl]
              rfl
      | cons next others =>
          have hnext : isBlank next = false := hword next (by simp)
          rw [ih (List.cons_ne_nil next others) fun d hd =>
            hword d (List.mem_cons_of_mem c hd)]
          simp only [List.cons_append, hnext]
          rfl

private theorem length_growWord (c : Char) (startsWord : Bool) (words : List (List Char)) :
    (growWord c startsWord words).length =
      if startsWord then words.length + 1 else max 1 words.length := by
  cases startsWord <;> cases words <;> simp [growWord]

private theorem length_growWord_pos (c : Char) (startsWord : Bool) (words : List (List Char)) :
    1 ≤ (growWord c startsWord words).length := by
  rw [length_growWord]
  split <;> omega

theorem words_ne_nil_of_head {c : Char} (h : isBlank c = false) (rest : List Char) :
    words (c :: rest) ≠ [] := by
  simp only [words, h, Bool.false_eq_true, if_false]
  exact List.length_pos_iff.mp (length_growWord_pos _ _ _)

-- Words do not go across a blank.
theorem words_append_of_isBlank {c : Char} (h : isBlank c = true) (front back : List Char) :
    words (front ++ c :: back) = words front ++ words back := by
  induction front with
  | nil => exact words_cons_of_isBlank h back
  | cons d rest ih =>
      simp only [List.cons_append, words]
      cases hd : isBlank d with
      | true => exact ih
      | false =>
          simp only [Bool.false_eq_true, if_false]
          cases rest with
          | nil =>
              rw [ih]
              simp [h, words, growWord]
          | cons e others =>
              rw [ih]
              cases he : isBlank e with
              | true => simp [he, growWord]
              | false =>
                  obtain ⟨word, behind, hwords⟩ :=
                    List.exists_cons_of_ne_nil (words_ne_nil_of_head he others)
                  simp [he, hwords, growWord]

-- A text has at least the words of its beginning.
theorem length_words_le (front back : List Char) :
    (words front).length ≤ (words (front ++ back)).length := by
  induction front with
  | nil => exact Nat.zero_le _
  | cons d rest ih =>
      simp only [List.cons_append, words]
      cases hd : isBlank d with
      | true => exact ih
      | false =>
          simp only [Bool.false_eq_true, if_false]
          cases rest with
          | nil => exact length_growWord_pos d _ _
          | cons e others =>
              simp only [List.cons_append, length_growWord] at ih ⊢
              split <;> omega

end DelayInjection.Text
